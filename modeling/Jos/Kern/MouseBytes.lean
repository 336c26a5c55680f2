import Jos.Kern.InputFifo
import Jos.Kern.ModifierKeys
import Mathlib.Data.List.TakeWhile

/-!
# Bytes of the mouse

`kbd_proc_data` does not read a byte of the mouse, and a byte that is not read stays at the port.
So the first one ends the input for good, and it does no harm only if what is behind it would
not have had an effect.
-/
namespace Jos

open Library

/-! ### What cons_intr enters -/

section Entered

variable {δ : Type} (proc : δ → Int × δ)

/-- The characters that `cons_intr(proc)` enters, and the device after it. -/
def entered : Nat → δ → Exec (List UInt8 × δ)
  | 0, _ => .error .outOfFuel
  | fuel + 1, device =>
    let (c, device) := proc device
    if c ≠ -1 then do
      let (chars, device) ← entered fuel device
      pure (if c = 0 then chars else UInt8.ofInt c :: chars, device)
    else .ok ([], device)

theorem consIntr_entered (fuel : Nat) (device : δ) (r : ConsRing) :
    consIntr proc fuel device (.ofRing r) =
      (fun (chars, device) => (device, .ofRing (chars.foldl Ring.push r))) <$>
        entered proc fuel device := by
  induction fuel generalizing device r with
  | zero => rfl
  | succ fuel ih =>
    rw [consIntr, entered]
    generalize proc device = result
    obtain ⟨c, device⟩ := result
    dsimp only
    by_cases more : c ≠ -1
    · rw [if_pos more, if_pos more]
      have inside : (Cons.ofRing r).wpos < CONSBUFSIZE := r.wpos_lt
      by_cases zero : c = 0
      · rw [if_pos zero, ih]
        cases entered proc fuel device with
        | error e => rfl
        | ok rest => simp [zero]
      · rw [if_neg zero, if_pos inside]
        refine (ih device (r.push (UInt8.ofInt c))).trans ?_
        cases entered proc fuel device with
        | error e => rfl
        | ok rest => simp [zero]
    · rw [if_neg more, if_neg more]
      rfl

end Entered

/-- What `n` calls of `kbd_intr` enter. -/
def kbdCalls : Nat → Keyboard → Exec (List UInt8 × Keyboard)
  | 0, k => pure ([], k)
  | n + 1, k => do
    let (chars, k) ← entered kbdProcData (k.port.length + 1) k
    let (more, k) ← kbdCalls n k
    pure (chars ++ more, k)

/-- `n` calls of `kbd_intr`. -/
def kbdIntrs : Nat → Keyboard → Cons → Exec (Keyboard × Cons)
  | 0, k, cons => pure (k, cons)
  | n + 1, k, cons => do
    let (k, cons) ← k.kbdIntr cons
    kbdIntrs n k cons

theorem kbdIntrs_kbdCalls (n : Nat) (k : Keyboard) (r : ConsRing) :
    kbdIntrs n k (.ofRing r) =
      (fun (chars, k) => (k, .ofRing (chars.foldl Ring.push r))) <$> kbdCalls n k := by
  induction n generalizing k r with
  | zero => rfl
  | succ n ih =>
    rw [kbdIntrs, kbdCalls, Keyboard.kbdIntr, consIntr_entered]
    cases entered kbdProcData (k.port.length + 1) k with
    | error e => rfl
    | ok first =>
      obtain ⟨chars, k'⟩ := first
      refine (ih k' (chars.foldl Ring.push r)).trans ?_
      rw [Exec.ok_bind]
      dsimp only
      cases kbdCalls n k' with
      | error e => rfl
      | ok rest => simp

/-- The same driver with the bytes of the keyboard alone. -/
def Keyboard.alone (k : Keyboard) : Keyboard :=
  { k with port := k.port.filter (·.1 = .keyboard) }

/-- Enough calls of `kbd_intr` enter the characters of the keyboard's bytes, and leave the shift
state that these leave. -/
def MouseIgnored (k : Keyboard) : Prop :=
  ∃ enough, ∀ n ≥ enough, ∃ chars k₁ k₂, kbdCalls n k = .ok (chars, k₁) ∧
    kbdCalls n k.alone = .ok (chars, k₂) ∧ k₁.shift = k₂.shift

/-! ### Up to the first byte of the mouse -/

/-- The characters of some bytes of the keyboard. -/
def kbdChars : BitVec 32 → List UInt8 → List UInt8
  | _, [] => []
  | s, b :: bytes =>
    let chars := kbdChars (decode s b).2 bytes
    if (decode s b).1 = 0 then chars else UInt8.ofInt (decode s b).1 :: chars

theorem kbdChars_append (s : BitVec 32) (xs ys : List UInt8) :
    kbdChars s (xs ++ ys) = kbdChars s xs ++ kbdChars (shiftAfter s xs) ys := by
  induction xs generalizing s with
  | nil => rfl
  | cons b xs ih =>
    rw [List.cons_append, kbdChars, kbdChars, ih, shiftAfter_cons]
    split <;> rfl

theorem shiftAfter_append (s : BitVec 32) (xs ys : List UInt8) :
    shiftAfter s (xs ++ ys) = shiftAfter (shiftAfter s xs) ys := List.foldl_append

/-- The bytes before the first one of the mouse. -/
def I8042.front (port : I8042) : List UInt8 := (port.takeWhile (·.1 = .keyboard)).map (·.2)

/-- The first byte of the mouse, and everything behind it. -/
def I8042.rest (port : I8042) : I8042 := port.dropWhile (·.1 = .keyboard)

/-- The bytes of the keyboard that are behind a byte of the mouse. -/
def I8042.behind (port : I8042) : List UInt8 :=
  (port.rest.filter (·.1 = .keyboard)).map (·.2)

theorem swapCase_nonneg {c : Int} (nonneg : 0 ≤ c) : 0 ≤ swapCase c := by
  have lower : ord 'a' = 97 := rfl
  have upper : ord 'A' = 65 := rfl
  unfold swapCase
  split
  · omega
  · split <;> omega

theorem decode_nonneg (s : BitVec 32) (b : UInt8) : 0 ≤ (decode s b).1 := by
  have char : ∀ s i, 0 ≤ (pressed s i).1 := by
    intro s i
    unfold pressed
    dsimp only
    split
    · exact swapCase_nonneg (Int.natCast_nonneg _)
    · exact Int.natCast_nonneg _
  unfold decode
  split
  · exact Int.le_refl 0
  · split
    · exact Int.le_refl 0
    · split <;> exact char _ _

theorem entered_port (port : I8042) (k : Keyboard) (same : k.port = port) (fuel : Nat)
    (enough : port.length < fuel) :
    ∃ k', entered kbdProcData fuel k = .ok (kbdChars k.shift port.front, k') ∧
      k'.shift = shiftAfter k.shift port.front ∧ k'.port = port.rest := by
  obtain ⟨fuel, rfl⟩ := Nat.exists_eq_succ_of_ne_zero (Nat.ne_of_gt (Nat.zero_lt_of_lt enough))
  induction port generalizing k fuel with
  | nil =>
    have idle := kbdProcData_idle (k := k) (by rw [same]; rfl)
    exact ⟨k, by rw [entered, idle]; rfl, rfl, same⟩
  | cons byte port ih =>
    obtain ⟨source, b⟩ := byte
    cases source with
    | mouse =>
      have idle := kbdProcData_idle (k := k) (by rw [same]; rfl)
      exact ⟨k, by rw [entered, idle]; rfl, rfl, same⟩
    | keyboard =>
      obtain ⟨char, shift, left⟩ := kbdProcData_keyboard same
      have more : (kbdProcData k).1 ≠ -1 := by
        have nonneg := decode_nonneg k.shift b
        omega
      obtain ⟨fuel, rfl⟩ : ∃ n, fuel = n + 1 := ⟨fuel - 1, by
        rw [List.length_cons] at enough
        omega⟩
      obtain ⟨k', returned, final, remaining⟩ :=
        ih (kbdProcData k).2 left fuel (Nat.lt_of_succ_lt_succ enough)
      rw [shift] at returned final
      refine ⟨k', ?_, final, remaining⟩
      rw [Nat.succ_eq_add_one, entered]
      dsimp only
      rw [if_pos more, returned, Exec.ok_bind, char]
      rfl

theorem front_rest (port : I8042) : port.rest.front = [] := by
  rw [I8042.front, List.map_eq_nil_iff]
  induction port with
  | nil => rfl
  | cons byte port ih =>
    rw [I8042.rest, List.dropWhile_cons]
    split
    · exact ih
    · next foreign => exact List.takeWhile_cons_of_neg foreign

theorem rest_of_front {port : I8042} (idle : port.front = []) : port.rest = port := by
  rw [I8042.front, List.map_eq_nil_iff] at idle
  have whole := List.takeWhile_append_dropWhile
    (p := fun byte : Source × UInt8 => decide (byte.1 = .keyboard)) (l := port)
  rwa [idle, List.nil_append] at whole

/-- With a byte of the mouse in front the driver does nothing, however often it is called. -/
theorem kbdCalls_idle (n : Nat) (k : Keyboard) (idle : k.port.front = []) :
    ∃ k', kbdCalls n k = .ok ([], k') ∧ k'.shift = k.shift := by
  induction n generalizing k with
  | zero => exact ⟨k, rfl, rfl⟩
  | succ n ih =>
    obtain ⟨k₁, called, shift₁, left⟩ := entered_port k.port k rfl _ (Nat.lt_succ_self _)
    rw [idle] at called shift₁
    rw [rest_of_front idle] at left
    obtain ⟨k₂, rest, shift₂⟩ := ih k₁ (left ▸ idle)
    refine ⟨k₂, ?_, shift₂.trans shift₁⟩
    rw [kbdCalls, called, Exec.ok_bind]
    dsimp only
    rw [rest]
    rfl

/-- The first call reads up to the first byte of the mouse, and the others nothing. -/
theorem kbdCalls_port (n : Nat) (k : Keyboard) :
    ∃ k', kbdCalls (n + 1) k = .ok (kbdChars k.shift k.port.front, k') ∧
      k'.shift = shiftAfter k.shift k.port.front := by
  obtain ⟨k₁, first, shift₁, left⟩ := entered_port k.port k rfl _ (Nat.lt_succ_self _)
  obtain ⟨k₂, rest, shift₂⟩ := kbdCalls_idle n k₁ (left ▸ front_rest k.port)
  refine ⟨k₂, ?_, shift₂.trans shift₁⟩
  rw [kbdCalls, first, Exec.ok_bind]
  dsimp only
  rw [rest, Exec.ok_bind]
  dsimp only
  rw [List.append_nil]
  rfl

theorem front_alone (port : I8042) :
    I8042.front (port.filter (·.1 = .keyboard)) = port.front ++ port.behind := by
  have all : ∀ byte ∈ port.filter (·.1 = .keyboard), decide (byte.1 = .keyboard) = true :=
    fun byte member => (List.mem_filter.mp member).2
  have split : port.filter (·.1 = .keyboard) =
      port.takeWhile (·.1 = .keyboard) ++ port.rest.filter (·.1 = .keyboard) := by
    have first : (port.takeWhile (·.1 = .keyboard)).filter (·.1 = .keyboard) =
        port.takeWhile (·.1 = .keyboard) :=
      List.filter_eq_self.mpr fun byte member =>
        List.mem_takeWhile_imp (p := fun byte : Source × UInt8 => decide (byte.1 = .keyboard)) member
    have whole := congrArg (List.filter (·.1 = .keyboard)) (List.takeWhile_append_dropWhile
      (p := fun byte : Source × UInt8 => decide (byte.1 = .keyboard)) (l := port))
    rw [List.filter_append, first] at whole
    exact whole.symm
  rw [I8042.front, List.takeWhile_eq_self_iff.mpr all, split, List.map_append]
  rfl

/-! ### Bytes without an effect -/

/-- The characters of the keys while some modifiers are set. -/
def keymap (shift ctl : Bool) : UInt8 → UInt8 :=
  if ctl then ctlmap else if shift then shiftmap else normalmap

/-- Whether a modifier is set after some events: the last one of its keys decides, and before
that the shift state `s`. -/
def Modifier.isSet (m : Modifier) (s : BitVec 32) (events : List KeyEvent) : Bool :=
  ((lastEvent m.keys events).map KeyEvent.isDown).getD (s.getLsbD m.pos)

/-- No key that is pressed among the events has a character, from the shift state `s` on. -/
def Charless (s : BitVec 32) (events : List KeyEvent) : Prop :=
  ∀ before key, before ++ [.down key] <+: events →
    keymap (Modifier.isSet .shift s (before ++ [.down key]))
      (Modifier.isSet .ctl s (before ++ [.down key])) key.index = NO

/-- The bytes enter nothing and leave the shift state `s` as it is: no key that is pressed has a
character, each modifier is left as it was, each lock is pressed an even number of times, and a
prefix is pending at the end if there was one at the start. -/
structure Unheard (s : BitVec 32) (bytes : List UInt8) : Prop where
  noChar : Charless s (scan (s.getLsbD 6) bytes)
  modifiers : ∀ m : Modifier, m.isSet s (scan (s.getLsbD 6) bytes) = s.getLsbD m.pos
  locks : ∀ l : Lock, Even (l.presses (scan (s.getLsbD 6) bytes))
  escape : ∀ b ∈ bytes.getLast?, b = 0xE0 ↔ s.getLsbD 6 = true

/-- The character of an event, with the shift state after it. -/
def KeyEvent.char (shift : BitVec 32) : KeyEvent → Int
  | down key =>
    let c : Int := (charcode (shift &&& (CTL ||| SHIFT)) key.index).toNat
    if shift &&& CAPSLOCK ≠ 0 then swapCase c else c
  | up _ => 0

theorem charcode_eq (s : BitVec 32) :
    charcode (s &&& (CTL ||| SHIFT)) = keymap (s.getLsbD 0) (s.getLsbD 1) := by
  have low : s &&& (CTL ||| SHIFT) = (s &&& CTL) ||| (s &&& SHIFT) := BitVec.and_or_distrib_left
  have ctl : s &&& CTL = if s.getLsbD 1 then CTL else 0 := BitVec.and_twoPow s 1
  have shift : s &&& SHIFT = if s.getLsbD 0 then SHIFT else 0 := BitVec.and_twoPow s 0
  rw [low, ctl, shift]
  cases s.getLsbD 0 <;> cases s.getLsbD 1 <;> rfl

theorem swapCase_eq_zero_iff (b : UInt8) : swapCase b.toNat = 0 ↔ b = 0 :=
  forall_byte (p := fun b => swapCase b.toNat = 0 ↔ b = 0) (by decide +kernel) b

theorem char_eq_zero_iff (s : BitVec 32) (key : Key) :
    (KeyEvent.down key).char s = 0 ↔ keymap (s.getLsbD 0) (s.getLsbD 1) key.index = NO := by
  rw [KeyEvent.char, charcode_eq]
  split
  · exact swapCase_eq_zero_iff _
  · rw [Int.natCast_eq_zero, ← UInt8.toNat_inj]
    rfl

theorem decode_char (s : BitVec 32) {b : UInt8} (noPrefix : b ≠ 0xE0) :
    (decode s b).1 = (event (s.getLsbD 6) b).char (decode s b).2 := by
  unfold decode event
  rw [if_neg noPrefix]
  by_cases released : b < 0x80
  · rw [if_neg (fun high => (released_iff b).mp high released), dif_pos released]
    by_cases escaped : s &&& E0ESC ≠ 0
    · rw [if_pos escaped, (escaped_iff s).mp escaped]
      rfl
    · rw [if_neg escaped, Bool.eq_false_iff.mpr fun on => escaped ((escaped_iff s).mpr on)]
      rfl
  · rw [if_pos ((released_iff b).mpr released), dif_neg released]
    rfl

theorem Modifier.isSet_eq (m : Modifier) (s : BitVec 32) (events : List KeyEvent) :
    m.isSet s events = events.foldl m.track (s.getLsbD m.pos) := (m.track_eq events _).symm

theorem Modifier.isSet_cons (m : Modifier) (s : BitVec 32) (e : KeyEvent)
    (events : List KeyEvent) : m.isSet s (e :: events) = m.isSet (e.apply s) events := by
  rw [isSet_eq, isSet_eq, m.apply_bit, List.foldl_cons]

theorem charless_cons (s : BitVec 32) (e : KeyEvent) (events : List KeyEvent) :
    Charless s (e :: events) ↔ e.char (e.apply s) = 0 ∧ Charless (e.apply s) events := by
  constructor
  · intro charless
    refine ⟨?_, fun before key run => ?_⟩
    · cases e with
      | up key => rfl
      | down key =>
        rw [char_eq_zero_iff]
        have first := charless [] key (by simp)
        rwa [List.nil_append, Modifier.isSet_cons, Modifier.isSet_cons] at first
    · have later := charless (e :: before) key (by simpa using run)
      rwa [List.cons_append, Modifier.isSet_cons, Modifier.isSet_cons] at later
  · rintro ⟨first, later⟩ before key run
    cases before with
    | nil =>
      obtain rfl : KeyEvent.down key = e := by simpa using run
      rw [List.nil_append, Modifier.isSet_cons, Modifier.isSet_cons]
      exact (char_eq_zero_iff _ key).mp first
    | cons e' before =>
      obtain ⟨rfl, rest⟩ : e' = e ∧ before ++ [.down key] <+: events := by simpa using run
      rw [List.cons_append, Modifier.isSet_cons, Modifier.isSet_cons]
      exact later before key rest

theorem kbdChars_eq_nil_iff (s : BitVec 32) (bytes : List UInt8) :
    kbdChars s bytes = [] ↔ Charless s (scan (s.getLsbD 6) bytes) := by
  refine bytes_induction (motive := fun s bytes events => kbdChars s bytes = [] ↔ Charless s events)
    ?_ ?_ ?_ s bytes
  · intro s
    simp [kbdChars, Charless]
  · intro s bytes later
    have none : (decode s 0xE0).1 = 0 := rfl
    rw [kbdChars, if_pos none, decode_prefix, later]
    -- the prefix touches neither modifier
    have same : ∀ (m : Modifier) events, m.isSet (s ||| E0ESC) events = m.isSet s events := by
      intro m events
      have other : m.pos ≠ 6 := by have := m.pos_lt; omega
      rw [Modifier.isSet, prefix_bit s other]
      rfl
    simp only [Charless, same]
  · rintro s b bytes e noPrefix same later
    rw [charless_cons, kbdChars, ← later, decode_char s noPrefix, decode_eq s noPrefix, ← same]
    by_cases zero : e.char (e.apply s) = 0
    · simp [zero]
    · simp [zero]

theorem shiftAfter_eq_iff (s : BitVec 32) (bytes : List UInt8) : shiftAfter s bytes = s ↔
    (∀ m : Modifier, m.isSet s (scan (s.getLsbD 6) bytes) = s.getLsbD m.pos) ∧
      (∀ l : Lock, Even (l.presses (scan (s.getLsbD 6) bytes))) ∧
        ∀ b ∈ bytes.getLast?, b = 0xE0 ↔ s.getLsbD 6 = true := by
  have modifier : ∀ m : Modifier, (shiftAfter s bytes).getLsbD m.pos = s.getLsbD m.pos ↔
      m.isSet s (scan (s.getLsbD 6) bytes) = s.getLsbD m.pos := by
    intro m
    rw [m.after_bit, m.isSet_eq]
  have lock : ∀ l : Lock, (shiftAfter s bytes).getLsbD l.pos = s.getLsbD l.pos ↔
      Even (l.presses (scan (s.getLsbD 6) bytes)) := by
    intro l
    rw [l.after_bit]
    cases s.getLsbD l.pos <;> simp
  have escape : (shiftAfter s bytes).getLsbD 6 = s.getLsbD 6 ↔
      ∀ b ∈ bytes.getLast?, b = 0xE0 ↔ s.getLsbD 6 = true := by
    rw [after_escape]
    cases bytes.getLast? with
    | none => simp
    | some b => cases s.getLsbD 6 <;> simp
  constructor
  · intro same
    exact ⟨fun m => (modifier m).mp (by rw [same]), fun l => (lock l).mp (by rw [same]),
      escape.mp (by rw [same])⟩
  · rintro ⟨modifiers, locks, prefixes⟩
    apply BitVec.eq_of_getLsbD_eq
    intro i _
    by_cases high : 7 ≤ i
    · exact after_high s bytes high
    match i, high with
    | 0, _ => exact (modifier .shift).mpr (modifiers .shift)
    | 1, _ => exact (modifier .ctl).mpr (modifiers .ctl)
    | 2, _ => exact (modifier .alt).mpr (modifiers .alt)
    | 3, _ => exact (lock .caps).mpr (locks .caps)
    | 4, _ => exact (lock .num).mpr (locks .num)
    | 5, _ => exact (lock .scroll).mpr (locks .scroll)
    | 6, _ => exact escape.mpr prefixes
    | i + 7, high => exact absurd (Nat.le_add_left 7 i) high

theorem unheard_iff (s : BitVec 32) (bytes : List UInt8) :
    Unheard s bytes ↔ kbdChars s bytes = [] ∧ shiftAfter s bytes = s := by
  rw [kbdChars_eq_nil_iff, shiftAfter_eq_iff]
  exact ⟨fun ⟨noChar, modifiers, locks, escape⟩ => ⟨noChar, modifiers, locks, escape⟩,
    fun ⟨noChar, modifiers, locks, escape⟩ => ⟨noChar, modifiers, locks, escape⟩⟩

/-! ### Any queue -/

theorem mouseIgnored_bytes (k : Keyboard) : MouseIgnored k ↔
    kbdChars (shiftAfter k.shift k.port.front) k.port.behind = [] ∧
      shiftAfter (shiftAfter k.shift k.port.front) k.port.behind =
        shiftAfter k.shift k.port.front := by
  -- the bytes of the keyboard alone are all read by the first call
  have alone : ∀ n, ∃ k₂, kbdCalls (n + 1) k.alone =
        .ok (kbdChars k.shift (k.port.front ++ k.port.behind), k₂) ∧
      k₂.shift = shiftAfter k.shift (k.port.front ++ k.port.behind) := by
    intro n
    have called := kbdCalls_port n k.alone
    rwa [Keyboard.alone, front_alone] at called
  rw [← shiftAfter_append]
  constructor
  · rintro ⟨enough, same⟩
    obtain ⟨chars, k₁, k₂, called, called', shift⟩ := same (enough + 1) (Nat.le_succ enough)
    obtain ⟨k₁', first, shift₁⟩ := kbdCalls_port enough k
    obtain ⟨k₂', second, shift₂⟩ := alone enough
    rw [called] at first
    rw [called'] at second
    cases first
    injection second with second
    injection second with chars shift'
    subst shift'
    rw [kbdChars_append, List.self_eq_append_right] at chars
    exact ⟨chars, by rw [← shift₂, ← shift, shift₁]⟩
  · rintro ⟨none, kept⟩
    refine ⟨1, fun n positive => ?_⟩
    obtain ⟨n, rfl⟩ := Nat.exists_eq_succ_of_ne_zero (Nat.ne_of_gt positive)
    obtain ⟨k₁, first, shift₁⟩ := kbdCalls_port n k
    obtain ⟨k₂, second, shift₂⟩ := alone n
    rw [kbdChars_append, none, List.append_nil] at second
    exact ⟨_, k₁, k₂, first, second, by rw [shift₁, shift₂, kept]⟩

/-- Bytes of the mouse are without consequence exactly if the bytes of the keyboard behind the
first of them are without effect. -/
theorem mouseIgnored_iff (k : Keyboard) :
    MouseIgnored k ↔ Unheard (shiftAfter k.shift k.port.front) k.port.behind := by
  rw [mouseIgnored_bytes, unheard_iff]

/-- A byte of the mouse in front of a letter. -/
theorem mouseIgnored_letter :
    ¬MouseIgnored { shift := 0, port := [(.mouse, 0x08), (.keyboard, 0x1E)], effects := [] } := by
  rw [mouseIgnored_bytes]
  rintro ⟨none, -⟩
  exact absurd none (by decide +kernel)

end Jos
