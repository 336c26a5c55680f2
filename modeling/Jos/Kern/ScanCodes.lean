import Jos.Kern.Keyboard
import Mathlib.Algebra.Ring.Parity

/-!
# What the shift state of kbd_proc_data records

The bytes of the keyboard are the events of its keys. Press and release of a key reach the
tables through different computations and with the same index, so each bit of the shift state
is a function of the events: a modifier is that of the last event of one of its keys.
-/
namespace Jos

open Library

/-! ### Keys and their events -/

/-- A key, by its make code and by whether that is prefixed. -/
structure Key where
  extended : Bool
  code : UInt8
  small : code < 0x80
  deriving DecidableEq

inductive KeyEvent where
  | down (key : Key)
  | up (key : Key)
  deriving DecidableEq

def KeyEvent.key : KeyEvent → Key
  | down key => key
  | up key => key

def KeyEvent.isDown : KeyEvent → Bool
  | down _ => true
  | up _ => false

theorem low_small (b : UInt8) : b &&& 0x7F < 0x80 :=
  forall_byte (p := fun b => b &&& 0x7F < 0x80) (by decide +kernel) b

/-- The event of a byte that is not the prefix. -/
def event (prefixed : Bool) (b : UInt8) : KeyEvent :=
  if small : b < 0x80 then .down ⟨prefixed, b, small⟩
  else .up ⟨prefixed, b &&& 0x7F, low_small b⟩

/-- The events of a sequence of bytes, `prefixed` if the prefix came before them. -/
def scan : Bool → List UInt8 → List KeyEvent
  | _, [] => []
  | prefixed, b :: bytes =>
    if b = 0xE0 then scan true bytes else event prefixed b :: scan false bytes

/-- The most recent event of some keys. -/
def lastEvent (keys : List Key) (events : List KeyEvent) : Option KeyEvent :=
  events.reverse.find? fun e => e.key ∈ keys

inductive Modifier where
  | shift | ctl | alt
  deriving DecidableEq

def Modifier.bit : Modifier → BitVec 32
  | shift => SHIFT
  | ctl => CTL
  | alt => ALT

def Modifier.keys : Modifier → List Key
  | shift => [⟨false, 0x2A, by decide⟩, ⟨false, 0x36, by decide⟩]
  | ctl => [⟨false, 0x1D, by decide⟩, ⟨true, 0x1D, by decide⟩]
  | alt => [⟨false, 0x38, by decide⟩, ⟨true, 0x38, by decide⟩]

inductive Lock where
  | caps | num | scroll
  deriving DecidableEq

def Lock.bit : Lock → BitVec 32
  | caps => CAPSLOCK
  | num => NUMLOCK
  | scroll => SCROLLLOCK

def Lock.key : Lock → Key
  | caps => ⟨false, 0x3A, by decide⟩
  | num => ⟨false, 0x45, by decide⟩
  | scroll => ⟨false, 0x46, by decide⟩

/-- How often a lock has been pressed. -/
def Lock.presses (l : Lock) (events : List KeyEvent) : Nat := events.count (.down l.key)

/-! ### The index of a key -/

/-- Where the tables have a key. -/
def Key.index (key : Key) : UInt8 := if key.extended then key.code ||| 0x80 else key.code

/-- What an event does to the shift state. -/
def KeyEvent.apply (shift : BitVec 32) : KeyEvent → BitVec 32
  | down key => (shift &&& ~~~E0ESC ||| shiftcode key.index) ^^^ togglecode key.index
  | up key => shift &&& ~~~(shiftcode key.index ||| E0ESC)

theorem released_iff (b : UInt8) : b &&& 0x80 ≠ 0 ↔ ¬b < 0x80 :=
  forall_byte (p := fun b => b &&& 0x80 ≠ 0 ↔ ¬b < 0x80) (by decide +kernel) b

theorem low_high {b : UInt8} (released : ¬b < 0x80) : b &&& 0x7F ||| 0x80 = b :=
  forall_byte (p := fun b => ¬b < 0x80 → b &&& 0x7F ||| 0x80 = b) (by decide +kernel) b released

theorem decode_event (shift : BitVec 32) {b : UInt8} (noPrefix : b ≠ 0xE0) :
    (decode shift b).2 = (event (shift &&& E0ESC ≠ 0) b).apply shift := by
  unfold decode event
  rw [if_neg noPrefix]
  by_cases released : b < 0x80
  · rw [if_neg (fun high => (released_iff b).mp high released), dif_pos released]
    by_cases escaped : shift &&& E0ESC ≠ 0
    · simp only [escaped, if_true, pressed, KeyEvent.apply, Key.index, decide_true, ne_eq,
        not_false_eq_true]
    · have clear : shift &&& ~~~E0ESC = shift := by
        rw [ne_eq, not_not] at escaped
        have split : shift &&& (E0ESC ||| ~~~E0ESC) = shift &&& E0ESC ||| shift &&& ~~~E0ESC :=
          BitVec.and_or_distrib_left
        rw [escaped, show E0ESC ||| ~~~E0ESC = BitVec.allOnes 32 by decide,
          BitVec.and_allOnes] at split
        exact (split.trans BitVec.zero_or).symm
      simp only [escaped, if_false, pressed, KeyEvent.apply, Key.index, decide_false, clear,
        Bool.false_eq_true]
  · rw [if_pos ((released_iff b).mpr released), dif_neg released]
    by_cases escaped : shift &&& E0ESC ≠ 0
    · simp only [escaped, if_true, KeyEvent.apply, Key.index, decide_true, low_high released, ne_eq,
        not_false_eq_true]
    · simp only [escaped, if_false, KeyEvent.apply, Key.index, decide_false, Bool.false_eq_true]

/-! ### The bits of the shift state -/

def Modifier.pos : Modifier → Nat
  | shift => 0
  | ctl => 1
  | alt => 2

def Lock.pos : Lock → Nat
  | caps => 3
  | num => 4
  | scroll => 5

theorem and_twoPow_ne_zero_iff (s : BitVec 32) {i : Nat} (inside : i < 32) :
    s &&& BitVec.twoPow 32 i ≠ 0 ↔ s.getLsbD i = true := by
  rw [BitVec.and_twoPow]
  cases s.getLsbD i with
  | false => simp
  | true =>
    refine ⟨fun _ => rfl, fun _ zero => ?_⟩
    have bit := congrArg (BitVec.getLsbD · i) zero
    simp [inside] at bit

theorem Modifier.set_iff (m : Modifier) (s : BitVec 32) :
    s &&& m.bit ≠ 0 ↔ s.getLsbD m.pos = true := by
  cases m <;> exact and_twoPow_ne_zero_iff s (by decide)

theorem Lock.set_iff (l : Lock) (s : BitVec 32) :
    s &&& l.bit ≠ 0 ↔ s.getLsbD l.pos = true := by
  cases l <;> exact and_twoPow_ne_zero_iff s (by decide)

theorem escaped_iff (s : BitVec 32) : s &&& E0ESC ≠ 0 ↔ s.getLsbD 6 = true :=
  and_twoPow_ne_zero_iff s (by decide)

/-- A decidable property of keys is checked by going through them. -/
theorem forall_key {p : Key → Prop}
    (each : ∀ extended, ∀ n < 256, ∀ small : UInt8.ofNat n < 0x80, p ⟨extended, _, small⟩)
    (key : Key) : p key := by
  obtain ⟨extended, code, small⟩ := key
  exact forall_byte (p := fun code => ∀ small, p ⟨extended, code, small⟩) (each extended) code small

/-- The table has the bit of a modifier for its keys and for no others. -/
theorem shiftcode_bit (m : Modifier) (key : Key) :
    (shiftcode key.index).getLsbD m.pos = decide (key ∈ m.keys) := by
  have each := forall_key (p := fun key => ∀ m ∈ [Modifier.shift, .ctl, .alt],
    (shiftcode key.index).getLsbD m.pos = decide (key ∈ m.keys)) (by decide +kernel) key
  exact each m (by cases m <;> decide)

theorem togglecode_bit (l : Lock) (key : Key) :
    (togglecode key.index).getLsbD l.pos = decide (key = l.key) := by
  have each := forall_key (p := fun key => ∀ l ∈ [Lock.caps, .num, .scroll],
    (togglecode key.index).getLsbD l.pos = decide (key = l.key)) (by decide +kernel) key
  exact each l (by cases l <;> decide)

theorem shiftcode_small (i : UInt8) : (shiftcode i).toNat < 8 :=
  forall_byte (p := fun i => (shiftcode i).toNat < 8) (by decide +kernel) i

theorem togglecode_mid (i : UInt8) :
    (togglecode i).toNat < 64 ∧ ∀ j < 3, (togglecode i).getLsbD j = false :=
  forall_byte (p := fun i => (togglecode i).toNat < 64 ∧ ∀ j < 3, (togglecode i).getLsbD j = false)
    (by decide +kernel) i

theorem getLsbD_small {s : BitVec 32} {n i : Nat} (small : s.toNat < 2 ^ n) (high : n ≤ i) :
    s.getLsbD i = false :=
  Nat.testBit_lt_two_pow (Nat.lt_of_lt_of_le small (Nat.pow_le_pow_right (by decide) high))

section Apply

variable (s : BitVec 32)

theorem down_bit (key : Key) (i : Nat) : ((KeyEvent.down key).apply s).getLsbD i =
    ((s.getLsbD i && !E0ESC.getLsbD i || (shiftcode key.index).getLsbD i) ^^
      (togglecode key.index).getLsbD i) := by
  rw [KeyEvent.apply, BitVec.getLsbD_xor, BitVec.getLsbD_or, BitVec.getLsbD_and, BitVec.getLsbD_not]
  by_cases inside : i < 32
  · rw [decide_eq_true inside, Bool.true_and]
  · rw [BitVec.getLsbD_of_ge s i (Nat.le_of_not_lt inside), Bool.false_and, Bool.false_and]

theorem up_bit (key : Key) (i : Nat) : ((KeyEvent.up key).apply s).getLsbD i =
    (s.getLsbD i && !((shiftcode key.index).getLsbD i || E0ESC.getLsbD i)) := by
  rw [KeyEvent.apply, BitVec.getLsbD_and, BitVec.getLsbD_not, BitVec.getLsbD_or]
  by_cases inside : i < 32
  · rw [decide_eq_true inside, Bool.true_and]
  · rw [BitVec.getLsbD_of_ge s i (Nat.le_of_not_lt inside), Bool.false_and, Bool.false_and]

theorem escape_bit {i : Nat} (other : i ≠ 6) : E0ESC.getLsbD i = false := by
  rw [show E0ESC = BitVec.twoPow 32 6 by decide, BitVec.getLsbD_twoPow]
  simp [Ne.symm other]

theorem Modifier.pos_lt (m : Modifier) : m.pos < 3 := by
  cases m <;> decide

theorem Lock.pos_range (l : Lock) : 3 ≤ l.pos ∧ l.pos < 6 := by
  cases l <;> decide

/-- A modifier after an event: that of one of its keys decides. -/
def Modifier.track (m : Modifier) (on : Bool) (e : KeyEvent) : Bool :=
  if e.key ∈ m.keys then e.isDown else on

theorem Modifier.apply_bit (m : Modifier) (e : KeyEvent) :
    (e.apply s).getLsbD m.pos = m.track (s.getLsbD m.pos) e := by
  have low := m.pos_lt
  have escape := escape_bit (show m.pos ≠ 6 by omega)
  have table := shiftcode_bit m e.key
  have toggle := (togglecode_mid e.key.index).2 m.pos low
  unfold track
  cases e with
  | down key =>
    rw [KeyEvent.key] at table toggle ⊢
    rw [down_bit, escape, table, toggle, KeyEvent.isDown]
    by_cases own : key ∈ m.keys <;> simp [own]
  | up key =>
    rw [KeyEvent.key] at table ⊢
    rw [up_bit, escape, table, KeyEvent.isDown]
    by_cases own : key ∈ m.keys <;> simp [own]

theorem Lock.apply_bit (l : Lock) (e : KeyEvent) :
    (e.apply s).getLsbD l.pos = (s.getLsbD l.pos ^^ decide (e = .down l.key)) := by
  have range := l.pos_range
  have escape := escape_bit (show l.pos ≠ 6 by omega)
  have table := getLsbD_small (n := 3) (shiftcode_small e.key.index) range.1
  have toggle := togglecode_bit l e.key
  cases e with
  | down key =>
    rw [KeyEvent.key] at table toggle
    rw [down_bit, escape, table, toggle]
    simp
  | up key =>
    rw [KeyEvent.key] at table
    rw [up_bit, escape, table]
    simp

/-- Every event ends the prefix. -/
theorem apply_escape (e : KeyEvent) : (e.apply s).getLsbD 6 = false := by
  have table := getLsbD_small (n := 3) (shiftcode_small e.key.index) (show 3 ≤ 6 by decide)
  have toggle := getLsbD_small (n := 6) (togglecode_mid e.key.index).1 (Nat.le_refl 6)
  have escape : E0ESC.getLsbD 6 = true := by decide
  cases e with
  | down key =>
    rw [KeyEvent.key] at table toggle
    rw [down_bit, escape, table, toggle]
    simp
  | up key =>
    rw [up_bit, escape]
    simp

/-- The bits above are never used. -/
theorem apply_high (e : KeyEvent) {i : Nat} (high : 7 ≤ i) :
    (e.apply s).getLsbD i = s.getLsbD i := by
  have escape := escape_bit (show i ≠ 6 by omega)
  have table := getLsbD_small (n := 3) (shiftcode_small e.key.index) (show 3 ≤ i by omega)
  have toggle := getLsbD_small (n := 6) (togglecode_mid e.key.index).1 (show 6 ≤ i by omega)
  cases e with
  | down key =>
    rw [KeyEvent.key] at table toggle
    rw [down_bit, escape, table, toggle]
    simp
  | up key =>
    rw [KeyEvent.key] at table
    rw [up_bit, escape, table]
    simp

end Apply

/-! ### The shift state after some bytes -/

/-- The shift state once the bytes have been read. -/
def shiftAfter (s : BitVec 32) (bytes : List UInt8) : BitVec 32 :=
  bytes.foldl (fun s b => (decode s b).2) s

theorem decode_prefix (s : BitVec 32) : (decode s 0xE0).2 = s ||| E0ESC := rfl

theorem prefix_bit (s : BitVec 32) {i : Nat} (other : i ≠ 6) :
    (s ||| E0ESC).getLsbD i = s.getLsbD i := by
  rw [BitVec.getLsbD_or, escape_bit other, Bool.or_false]

theorem prefix_escape (s : BitVec 32) : (s ||| E0ESC).getLsbD 6 = true := by
  rw [BitVec.getLsbD_or, show E0ESC.getLsbD 6 = true by decide, Bool.or_true]

/-- A fact about the events of some bytes, by the byte that comes first. -/
theorem bytes_induction {motive : BitVec 32 → List UInt8 → List KeyEvent → Prop}
    (nil : ∀ s, motive s [] [])
    (escape : ∀ s bytes, motive (s ||| E0ESC) bytes (scan true bytes) →
      motive s (0xE0 :: bytes) (scan true bytes))
    (other : ∀ s b bytes e, b ≠ 0xE0 → e = event (s.getLsbD 6) b →
      motive (e.apply s) bytes (scan false bytes) → motive s (b :: bytes) (e :: scan false bytes))
    (s : BitVec 32) (bytes : List UInt8) : motive s bytes (scan (s.getLsbD 6) bytes) := by
  induction bytes generalizing s with
  | nil => exact nil s
  | cons b bytes ih =>
    rw [scan]
    by_cases isPrefix : b = 0xE0
    · subst isPrefix
      rw [if_pos rfl]
      have later := ih (s ||| E0ESC)
      rw [prefix_escape] at later
      exact escape s bytes later
    · rw [if_neg isPrefix]
      have later := ih ((event (s.getLsbD 6) b).apply s)
      rw [apply_escape] at later
      exact other s b bytes _ isPrefix rfl later

theorem shiftAfter_cons (s : BitVec 32) (b : UInt8) (bytes : List UInt8) :
    shiftAfter s (b :: bytes) = shiftAfter (decode s b).2 bytes := rfl

theorem decode_eq (s : BitVec 32) {b : UInt8} (noPrefix : b ≠ 0xE0) :
    (decode s b).2 = (event (s.getLsbD 6) b).apply s := by
  have flag : decide (s &&& E0ESC ≠ 0) = s.getLsbD 6 := by
    simp only [escaped_iff, Bool.decide_eq_true]
  rw [decode_event s noPrefix, flag]

theorem Modifier.after_bit (m : Modifier) (s : BitVec 32) (bytes : List UInt8) :
    (shiftAfter s bytes).getLsbD m.pos =
      (scan (s.getLsbD 6) bytes).foldl m.track (s.getLsbD m.pos) := by
  have other : m.pos ≠ 6 := by have := m.pos_lt; omega
  refine bytes_induction (motive := fun s bytes events =>
    (shiftAfter s bytes).getLsbD m.pos = events.foldl m.track (s.getLsbD m.pos)) ?_ ?_ ?_ s bytes
  · exact fun s => rfl
  · intro s bytes later
    rw [shiftAfter_cons, decode_prefix, later, prefix_bit s other]
  · rintro s b bytes e noPrefix rfl later
    rw [shiftAfter_cons, decode_eq s noPrefix, later, m.apply_bit, List.foldl_cons]

theorem Lock.after_bit (l : Lock) (s : BitVec 32) (bytes : List UInt8) :
    (shiftAfter s bytes).getLsbD l.pos =
      (s.getLsbD l.pos ^^ decide (Odd (l.presses (scan (s.getLsbD 6) bytes)))) := by
  have other : l.pos ≠ 6 := by have := l.pos_range; omega
  refine bytes_induction (motive := fun s bytes events => (shiftAfter s bytes).getLsbD l.pos =
    (s.getLsbD l.pos ^^ decide (Odd (l.presses events)))) ?_ ?_ ?_ s bytes
  · intro s
    simp [presses, shiftAfter]
  · intro s bytes later
    rw [shiftAfter_cons, decode_prefix, later, prefix_bit s other]
  · rintro s b bytes e noPrefix same later
    rw [shiftAfter_cons, decode_eq s noPrefix, ← same, later, l.apply_bit, presses, presses,
      List.count_cons, Bool.xor_assoc]
    congr 1
    by_cases press : e = .down l.key
    · rw [decide_eq_true press, Bool.true_xor, if_pos (beq_iff_eq.mpr press),
        decide_eq_decide.mpr Nat.odd_add_one, decide_not]
    · rw [decide_eq_false press, Bool.false_xor, if_neg (fun equal => press (beq_iff_eq.mp equal)),
        Nat.add_zero]

theorem after_escape (s : BitVec 32) (bytes : List UInt8) :
    (shiftAfter s bytes).getLsbD 6 = (bytes.getLast?.map (· == 0xE0)).getD (s.getLsbD 6) := by
  refine bytes_induction (motive := fun s bytes _ => (shiftAfter s bytes).getLsbD 6 =
    (bytes.getLast?.map (· == 0xE0)).getD (s.getLsbD 6)) ?_ ?_ ?_ s bytes
  · exact fun s => rfl
  · intro s bytes later
    rw [shiftAfter_cons, decode_prefix, later, prefix_escape, List.getLast?_cons]
    cases bytes.getLast? <;> rfl
  · rintro s b bytes e noPrefix same later
    rw [shiftAfter_cons, decode_eq s noPrefix, ← same, later, apply_escape, List.getLast?_cons]
    cases bytes.getLast? <;> simp [noPrefix]

theorem after_high (s : BitVec 32) (bytes : List UInt8) {i : Nat} (high : 7 ≤ i) :
    (shiftAfter s bytes).getLsbD i = s.getLsbD i := by
  refine bytes_induction (motive := fun s bytes _ =>
    (shiftAfter s bytes).getLsbD i = s.getLsbD i) ?_ ?_ ?_ s bytes
  · exact fun s => rfl
  · intro s bytes later
    rw [shiftAfter_cons, decode_prefix, later, prefix_bit s (by omega)]
  · rintro s b bytes e noPrefix same later
    rw [shiftAfter_cons, decode_eq s noPrefix, ← same, later, apply_high s e high]

end Jos
