import Jos.Kern.ModifierKeys

/-!
# Keys that are held

A keyboard sends a make code when a key is pressed, again and again while it is held, and a
break code when it is released. Pause is the one key without a break code: it sends that of a
left `Ctrl` and of the num lock key, or, while a `Ctrl` is held, the codes of the break key.
-/
namespace Jos

open Library

/-- A key that a keyboard can have: its break code is not the prefix. -/
abbrev BoardKey := { key : Key // key.code ≠ 0x60 }

inductive KeyOp where
  | press (key : BoardKey)
  | release (key : BoardKey)
  | pause

def Key.makeCode (key : Key) : List UInt8 :=
  if key.extended then [0xE0, key.code] else [key.code]

def Key.breakCode (key : Key) : List UInt8 :=
  if key.extended then [0xE0, key.code ||| 0x80] else [key.code ||| 0x80]

/-- The keys that are held, and what the keyboard has sent. -/
structure Board where
  held : Key → Bool
  sent : List UInt8

namespace Board

def start : Board := { held := fun _ => false, sent := [] }

/-- Whether a key of the modifier is held. -/
def holds (b : Board) (m : Modifier) : Bool := m.keys.any b.held

def codes (b : Board) : KeyOp → List UInt8
  | .press key => key.val.makeCode
  | .release key => key.val.breakCode
  | .pause =>
    if b.holds .ctl then [0xE0, 0x46, 0xE0, 0xC6] else [0xE1, 0x1D, 0x45, 0xE1, 0x9D, 0xC5]

def step (b : Board) (op : KeyOp) : Board where
  held := match op with
    | .press key => Function.update b.held key true
    | .release key => Function.update b.held key false
    | .pause => b.held
  sent := b.sent ++ b.codes op

def after (ops : List KeyOp) : Board := ops.foldl step start

theorem after_concat (ops : List KeyOp) (op : KeyOp) :
    after (ops ++ [op]) = (after ops).step op := by
  rw [after, after, List.foldl_append]
  rfl

end Board

/-- While a key of a modifier is held, the driver has the modifier set. -/
def ModifiersKept (b : Board) : Prop :=
  ∀ k, Reads b.sent k → ∀ m : Modifier, b.holds m → k.shift &&& m.bit ≠ 0

/-! ### The codes of an event -/

theorem scan_makeCode (key : Key) : scan false key.makeCode = [.down key] := by
  obtain ⟨extended, code, small⟩ := key
  have noPrefix : code ≠ 0xE0 := by
    rintro rfl
    exact absurd small (by decide)
  cases extended <;> simp [Key.makeCode, scan, event, noPrefix, small]

theorem scan_breakCode (key : BoardKey) : scan false key.val.breakCode = [.up key] := by
  obtain ⟨⟨extended, code, small⟩, real⟩ := key
  have facts : code ||| 0x80 ≠ 0xE0 ∧ ¬code ||| 0x80 < 0x80 ∧ (code ||| 0x80) &&& 0x7F = code :=
    forall_byte (p := fun code => code < 0x80 → code ≠ 0x60 →
      code ||| 0x80 ≠ 0xE0 ∧ ¬code ||| 0x80 < 0x80 ∧ (code ||| 0x80) &&& 0x7F = code)
      (by decide +kernel) code small real
  cases extended <;> simp [Key.breakCode, scan, event, facts]

theorem last_makeCode (key : Key) : key.makeCode.getLast? = some key.code := by
  unfold Key.makeCode
  split <;> rfl

theorem last_breakCode (key : Key) : key.breakCode.getLast? = some (key.code ||| 0x80) := by
  unfold Key.breakCode
  split <;> rfl

/-- No event ends with the prefix. -/
theorem Board.codes_last (b : Board) (op : KeyOp) :
    ∃ c, (b.codes op).getLast? = some c ∧ c ≠ 0xE0 := by
  cases op with
  | press key =>
    refine ⟨_, last_makeCode key.val, ?_⟩
    intro isPrefix
    have small := key.val.small
    rw [isPrefix] at small
    exact absurd small (by decide)
  | release key =>
    refine ⟨_, last_breakCode key.val, ?_⟩
    exact forall_byte (p := fun code => code < 0x80 → code ≠ 0x60 → code ||| 0x80 ≠ 0xE0)
      (by decide +kernel) key.val.code key.val.small key.property
  | pause =>
    rw [codes]
    split
    · exact ⟨0xC6, rfl, by decide⟩
    · exact ⟨0xC5, rfl, by decide⟩

/-! ### The shift state after an event -/

/-- The shift state when everything that was sent has been read. -/
def Board.shift (b : Board) : BitVec 32 := shiftAfter 0 b.sent

theorem Board.step_shift (b : Board) (op : KeyOp) :
    (b.step op).shift = shiftAfter b.shift (b.codes op) :=
  List.foldl_append ..

theorem Board.after_escape (ops : List KeyOp) : (after ops).shift.getLsbD 6 = false := by
  induction ops using List.reverseRecOn with
  | nil => decide
  | append_singleton ops op _ =>
    obtain ⟨c, last, noPrefix⟩ := (after ops).codes_last op
    rw [after_concat, step_shift, Jos.after_escape, last]
    simp [noPrefix]

theorem Board.after_bit (ops : List KeyOp) (op : KeyOp) (m : Modifier) :
    (after (ops ++ [op])).shift.getLsbD m.pos =
      (scan false ((after ops).codes op)).foldl m.track ((after ops).shift.getLsbD m.pos) := by
  rw [after_concat, step_shift, m.after_bit, after_escape]

theorem after_press (ops : List KeyOp) (key : BoardKey) (m : Modifier) :
    (Board.after (ops ++ [.press key])).shift.getLsbD m.pos =
      (decide (key.val ∈ m.keys) || (Board.after ops).shift.getLsbD m.pos) := by
  rw [Board.after_bit, Board.codes, scan_makeCode, List.foldl_cons, List.foldl_nil, Modifier.track,
    KeyEvent.key]
  by_cases own : key.val ∈ m.keys <;> simp [own, KeyEvent.isDown]

theorem after_release (ops : List KeyOp) (key : BoardKey) (m : Modifier) :
    (Board.after (ops ++ [.release key])).shift.getLsbD m.pos =
      (!decide (key.val ∈ m.keys) && (Board.after ops).shift.getLsbD m.pos) := by
  rw [Board.after_bit, Board.codes, scan_breakCode, List.foldl_cons, List.foldl_nil, Modifier.track,
    KeyEvent.key]
  by_cases own : key.val ∈ m.keys <;> simp [own, KeyEvent.isDown]

/-- Pause leaves a modifier alone, unless it is a `Ctrl` that is not held. -/
theorem after_pause (ops : List KeyOp) (m : Modifier) (held : (Board.after ops).holds m) :
    (Board.after (ops ++ [.pause])).shift.getLsbD m.pos =
      (Board.after ops).shift.getLsbD m.pos := by
  rw [Board.after_bit, Board.codes]
  cases m with
  | ctl =>
    rw [if_pos held]
    rfl
  | shift => split <;> rfl
  | alt => split <;> rfl

/-! ### Which keys are held -/

theorem Board.holds_iff (b : Board) (m : Modifier) : b.holds m ↔ ∃ key ∈ m.keys, b.held key :=
  List.any_eq_true

theorem held_press (ops : List KeyOp) (key : BoardKey) (other : Key) :
    (Board.after (ops ++ [.press key])).held other =
      (decide (other = key.val) || (Board.after ops).held other) := by
  rw [Board.after_concat]
  by_cases same : other = key.val <;> simp [Board.step, same]

theorem held_release (ops : List KeyOp) (key : BoardKey) (other : Key) :
    (Board.after (ops ++ [.release key])).held other =
      (!decide (other = key.val) && (Board.after ops).held other) := by
  rw [Board.after_concat]
  by_cases same : other = key.val <;> simp [Board.step, same]

theorem held_pause (ops : List KeyOp) :
    (Board.after (ops ++ [.pause])).held = (Board.after ops).held := by
  rw [Board.after_concat]
  rfl

/-! ### Every run -/

/-- The driver can have read any bytes. -/
theorem reads_exists (bytes : List UInt8) : ∃ k, Reads bytes k := by
  -- the bytes wait at the port, and each call reads one
  have calls : ∀ (done bytes : List UInt8) (k : Keyboard), Reads done k →
      k.port = bytes.map (Source.keyboard, ·) → ∃ k', Reads (done ++ bytes) k' := by
    intro done bytes
    induction bytes generalizing done with
    | nil => exact fun k reads _ => ⟨k, by rwa [List.append_nil]⟩
    | cons b bytes ih =>
      intro k reads port
      have called := reads.call
      rw [port, List.map_cons, I8042.offered] at called
      obtain ⟨k', rest⟩ := ih (done ++ [b]) _ called (kbdProcData_keyboard port).2.2
      exact ⟨k', by rwa [List.append_assoc] at rest⟩
  exact calls [] bytes _ (.powerOn _) rfl

theorem modifiersKept_iff (b : Board) :
    ModifiersKept b ↔ ∀ m : Modifier, b.holds m → b.shift.getLsbD m.pos = true := by
  constructor
  · intro kept m held
    obtain ⟨k, reads⟩ := reads_exists b.sent
    have on := kept k reads m held
    rwa [m.set_iff, reads.shift_eq] at on
  · intro on k reads m held
    rw [m.set_iff, reads.shift_eq]
    exact on m held

/-- A step that keeps the modifiers: no key is released while another one of its modifier is
held. -/
def Gentle (b : Board) : KeyOp → Prop
  | .release key => ∀ m : Modifier, key.val ∈ m.keys →
      ∀ other ∈ m.keys, b.held other → other = key.val
  | _ => True

theorem kept_step {ops : List KeyOp} {op : KeyOp} (kept : ModifiersKept (Board.after ops))
    (gentle : Gentle (Board.after ops) op) : ModifiersKept (Board.after (ops ++ [op])) := by
  rw [modifiersKept_iff] at kept ⊢
  intro m held
  obtain ⟨other, own, held⟩ := (Board.holds_iff _ m).mp held
  cases op with
  | press key =>
    rw [after_press, Bool.or_eq_true, decide_eq_true_iff]
    rw [held_press, Bool.or_eq_true, decide_eq_true_iff] at held
    rcases held with rfl | before
    · exact .inl own
    · exact .inr (kept m ((Board.holds_iff _ m).mpr ⟨other, own, before⟩))
  | release key =>
    rw [held_release, Bool.and_eq_true, Bool.not_eq_true', decide_eq_false_iff_not] at held
    obtain ⟨different, before⟩ := held
    -- otherwise the other key would be the one that is released
    have foreign : key.val ∉ m.keys := fun same => different (gentle m same other own before)
    rw [after_release, decide_eq_false foreign]
    exact kept m ((Board.holds_iff _ m).mpr ⟨other, own, before⟩)
  | pause =>
    rw [held_pause] at held
    have holds := (Board.holds_iff _ m).mpr ⟨other, own, held⟩
    rw [after_pause ops m holds]
    exact kept m holds

theorem not_kept_step {ops : List KeyOp} {op : KeyOp}
    (kept : ModifiersKept (Board.after (ops ++ [op]))) : Gentle (Board.after ops) op := by
  cases op with
  | press key => trivial
  | pause => trivial
  | release key =>
    intro m released other own held
    by_contra different
    have still : (Board.after (ops ++ [.release key])).holds m := by
      rw [Board.holds_iff]
      exact ⟨other, own, by rw [held_release, held, decide_eq_false different]; rfl⟩
    have on := (modifiersKept_iff _).mp kept m still
    rw [after_release, decide_eq_true released] at on
    cases on

/-- In a run, the modifiers of the keys that are held are set after every step, exactly if no
key is ever released while another one of its modifier is held. -/
theorem heldModifier_iff (ops : List KeyOp) :
    (∀ done, done <+: ops → ModifiersKept (Board.after done)) ↔
      ∀ done op, done ++ [op] <+: ops → Gentle (Board.after done) op := by
  constructor
  · exact fun kept done op run => not_kept_step (kept _ run)
  · intro gentle done run
    induction done using List.reverseRecOn with
    | nil =>
      intro k _ m held
      obtain ⟨key, _, held⟩ := (Board.holds_iff _ m).mp held
      cases held
    | append_singleton done op ih =>
      exact kept_step (ih ((List.prefix_append done [op]).trans run)) (gentle done op run)

theorem leftShift_small : (0x2A : UInt8) < 0x80 := by decide
theorem rightShift_small : (0x36 : UInt8) < 0x80 := by decide

def leftShift : BoardKey := ⟨⟨false, 0x2A, leftShift_small⟩, by decide⟩
def rightShift : BoardKey := ⟨⟨false, 0x36, rightShift_small⟩, by decide⟩

/-- Both `Shift` keys are pressed, and one is released. -/
theorem heldModifier_lost :
    ¬∀ done, done <+: [.press leftShift, .press rightShift, .release leftShift] →
      ModifiersKept (Board.after done) := by
  intro kept
  have gentle : Gentle (Board.after [.press leftShift, .press rightShift]) (.release leftShift) :=
    not_kept_step (kept _ (List.prefix_refl _))
  have same := gentle .shift (by decide) rightShift.val (by decide) (by decide)
  exact absurd same (by decide)

end Jos
