import Jos.Library.Exec

/-!
# Busy-waiting

A status register is read until it says that the device is ready. `Wears` holds of a device that
gets ready by itself: then a loop that waits for as long as it takes always ends, and one that
gives up ends with a device that is ready or just that much closer to it.
-/
namespace Library

variable {σ β : Type}

/-- The device after `k` reads of its status. -/
def reads (read : σ → β × σ) : Nat → σ → σ
  | 0, s => s
  | k + 1, s => reads read k (read s).2

/-- `while (!ready(read())) ;` -/
def spin (read : σ → β × σ) (ready : β → Bool) : Nat → σ → Exec σ
  | 0, _ => .error .outOfFuel
  | fuel + 1, s =>
    if ready (read s).1 then .ok (read s).2 else spin read ready fuel (read s).2

/-- `for (i = 0; !ready(read()) && i < n; i++) ;` -/
def spinFor (read : σ → β × σ) (ready : β → Bool) : Nat → σ → σ
  | 0, s => (read s).2
  | n + 1, s => if ready (read s).1 then (read s).2 else spinFor read ready n (read s).2

/-- The device is ready once its status has been read `busy` times. -/
structure Wears (read : σ → β × σ) (ready : β → Bool) (busy : σ → Nat) : Prop where
  status : ∀ s, ready (read s).1 = true ↔ busy s = 0
  wears : ∀ s, busy (read s).2 = busy s - 1

section Wears

variable {read : σ → β × σ} {ready : β → Bool} {busy : σ → Nat}

theorem Wears.busy_reads (wears : Wears read ready busy) (k : Nat) (s : σ) :
    busy (reads read k s) = busy s - k := by
  induction k generalizing s with
  | zero => rfl
  | succ k ih =>
    rw [reads, ih, wears.wears]
    omega

theorem Wears.spin (wears : Wears read ready busy) {fuel : Nat} {s : σ} (enough : busy s < fuel) :
    spin read ready fuel s = .ok (reads read (busy s + 1) s) := by
  induction fuel generalizing s with
  | zero => omega
  | succ fuel ih =>
    have next := wears.wears s
    rw [Library.spin]
    by_cases now : busy s = 0
    · rw [if_pos ((wears.status s).mpr now), now]
      rfl
    · have left : busy s = busy (read s).2 + 1 := by omega
      rw [if_neg (fun yes => now ((wears.status s).mp yes)), ih (by omega), left]
      rfl

/-- Giving up after `n` turns is no different as long as the device gets ready in time. -/
theorem Wears.spinFor (wears : Wears read ready busy) (n : Nat) (s : σ) :
    spinFor read ready n s = reads read (min (busy s) n + 1) s := by
  induction n generalizing s with
  | zero => simp [Library.spinFor, reads]
  | succ n ih =>
    have next := wears.wears s
    rw [Library.spinFor]
    by_cases now : busy s = 0
    · rw [if_pos ((wears.status s).mpr now), now, Nat.zero_min]
      rfl
    · have left : min (busy s) (n + 1) = min (busy (read s).2) n + 1 := by omega
      rw [if_neg (fun yes => now ((wears.status s).mp yes)), ih, left]
      rfl

end Wears

end Library
