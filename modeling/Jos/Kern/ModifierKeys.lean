import Jos.Kern.ScanCodes
import Mathlib.Data.List.Induction

/-!
# Modifier keys

No modifier is stuck: one that is set belongs to a key whose last event is a press. The keys of
a modifier share its bit, so releasing one of them clears it for the other one, and nothing
else does.
-/
namespace Jos

open Library

/-! ### The last event decides -/

theorem lastEvent_concat (keys : List Key) (events : List KeyEvent) (e : KeyEvent) :
    lastEvent keys (events ++ [e]) = if e.key ∈ keys then some e else lastEvent keys events := by
  rw [lastEvent, List.reverse_append, List.reverse_singleton, List.singleton_append,
    List.find?_cons]
  by_cases own : e.key ∈ keys
  · rw [decide_eq_true own, if_pos own]
  · rw [decide_eq_false own, if_neg own]
    rfl

theorem Modifier.track_eq (m : Modifier) (events : List KeyEvent) (on : Bool) :
    events.foldl m.track on = ((lastEvent m.keys events).map KeyEvent.isDown).getD on := by
  induction events using List.reverseRecOn with
  | nil => rfl
  | append_singleton events e ih =>
    rw [List.foldl_append, List.foldl_cons, List.foldl_nil, ih, lastEvent_concat, track]
    by_cases own : e.key ∈ m.keys
    · rw [if_pos own, if_pos own]
      rfl
    · rw [if_neg own, if_neg own]

/-- The last event of several keys is that of one of them. -/
theorem lastEvent_own {keys : List Key} {events : List KeyEvent} {e : KeyEvent}
    (last : lastEvent keys events = some e) :
    e.key ∈ keys ∧ lastEvent [e.key] events = some e := by
  obtain ⟨own, later, earlier, split, none⟩ := List.find?_eq_some_iff_append.mp last
  rw [decide_eq_true_iff] at own
  refine ⟨own, List.find?_eq_some_iff_append.mpr ⟨by simp, later, earlier, split, ?_⟩⟩
  intro e' member
  have foreign : e'.key ∉ keys := by simpa using none e' member
  have other : e'.key ≠ e.key := fun same => foreign (same ▸ own)
  simp [other]

/-! ### Runs of the driver -/

/-- The bytes that the next call of `kbd_proc_data` reads. -/
def I8042.offered : I8042 → List UInt8
  | (.keyboard, b) :: _ => [b]
  | _ => []

/-- `kbd_proc_data` has read these bytes since power-on. -/
inductive Reads : List UInt8 → Keyboard → Prop
  | powerOn (port : I8042) : Reads [] { shift := 0, port, effects := [] }
  | arrive {bytes : List UInt8} {k : Keyboard} (byte : Source × UInt8) :
      Reads bytes k → Reads bytes { k with port := k.port ++ [byte] }
  | call {bytes : List UInt8} {k : Keyboard} :
      Reads bytes k → Reads (bytes ++ k.port.offered) (kbdProcData k).2

theorem special_shift (k : Keyboard) (c : Int) : (k.special c).shift = k.shift := by
  unfold Keyboard.special
  split <;> rfl

theorem special_port (k : Keyboard) (c : Int) : (k.special c).port = k.port := by
  unfold Keyboard.special
  split <;> rfl

/-- A byte of the keyboard is read and decoded. -/
theorem kbdProcData_keyboard {k : Keyboard} {b : UInt8} {port : I8042}
    (first : k.port = (.keyboard, b) :: port) :
    (kbdProcData k).1 = (decode k.shift b).1 ∧
      (kbdProcData k).2.shift = (decode k.shift b).2 ∧ (kbdProcData k).2.port = port := by
  have data : ¬KBS_DIB &&& KBS_DIB = 0 := by decide
  have own : ¬KBS_DIB &&& KBS_TERR ≠ 0 := by decide
  simp only [kbdProcData, first, I8042.stat, I8042.inb, data, own, if_false, special_shift,
    special_port, and_self]

/-- Without one, nothing happens. -/
theorem kbdProcData_idle {k : Keyboard} (none : k.port.offered = []) :
    kbdProcData k = (-1, k) := by
  have data : ¬(KBS_DIB ||| KBS_TERR) &&& KBS_DIB = 0 := by decide
  have mouse : (KBS_DIB ||| KBS_TERR) &&& KBS_TERR ≠ 0 := by decide
  cases port : k.port with
  | nil => simp [kbdProcData, port, I8042.stat]
  | cons byte rest =>
    obtain ⟨source, b⟩ := byte
    cases source with
    | keyboard => simp [port, I8042.offered] at none
    | mouse =>
      simp only [kbdProcData, port, I8042.stat, data, if_false]
      rw [if_pos mouse]

theorem Reads.shift_eq {bytes : List UInt8} {k : Keyboard} (reads : Reads bytes k) :
    k.shift = shiftAfter 0 bytes := by
  induction reads with
  | powerOn port => rfl
  | arrive byte _ ih => exact ih
  | @call bytes k _ ih =>
    cases offered : k.port.offered with
    | nil => rw [kbdProcData_idle offered, List.append_nil, ih]
    | cons b none =>
      obtain ⟨port, first, rfl⟩ : ∃ port, k.port = (.keyboard, b) :: port ∧ none = [] := by
        unfold I8042.offered at offered
        split at offered
        · next port first =>
          cases offered
          exact ⟨_, first, rfl⟩
        · cases offered
      rw [(kbdProcData_keyboard first).2.1, ih, shiftAfter, shiftAfter, List.foldl_append]
      rfl

/-- No modifier is stuck, the prefix lasts for one byte, and a lock has the parity of its
presses. -/
theorem noStuckModifier {bytes : List UInt8} {k : Keyboard} (reads : Reads bytes k) :
    (∀ m : Modifier, k.shift &&& m.bit ≠ 0 →
        ∃ key ∈ m.keys, lastEvent [key] (scan false bytes) = some (.down key)) ∧
      (k.shift &&& E0ESC ≠ 0 ↔ bytes.getLast? = some 0xE0) ∧
      ∀ l : Lock, k.shift &&& l.bit ≠ 0 ↔ Odd (l.presses (scan false bytes)) := by
  rw [reads.shift_eq]
  refine ⟨?_, ?_, ?_⟩
  · intro m on
    rw [m.set_iff, m.after_bit, m.track_eq] at on
    cases last : lastEvent m.keys (scan false bytes) with
    | none =>
      rw [show (0 : BitVec 32).getLsbD 6 = false by decide, last] at on
      simp at on
    | some e =>
      rw [show (0 : BitVec 32).getLsbD 6 = false by decide, last] at on
      obtain ⟨own, alone⟩ := lastEvent_own last
      cases e with
      | down key => exact ⟨key, own, alone⟩
      | up key => simp [KeyEvent.isDown] at on
  · rw [escaped_iff, after_escape]
    cases bytes.getLast? <;> simp
  · intro l
    rw [l.set_iff, l.after_bit]
    simp

/-- The right `Ctrl`, in front of a byte of the mouse. -/
theorem noStuckModifier_ctrl :
    ∃ key ∈ Modifier.keys .ctl, lastEvent [key] (scan false [0xE0, 0x1D]) = some (.down key) := by
  have reads : Reads [0xE0, 0x1D] _ :=
    (Reads.powerOn [(.keyboard, 0xE0), (.keyboard, 0x1D), (.mouse, 0x08)]).call.call
  exact (noStuckModifier reads).1 .ctl (by decide)

end Jos
