import Jos.Library.Memory

/-!
# Filling memory

A window of memory that holds one byte throughout, and the string instructions that store
it. Elements of any size fill the same window as long as their bytes are all alike.
-/
namespace Library

/-- The memory after `n` bytes from `d` on have been set to `b`. -/
def filled (m : Mem) (d : BitVec 32) (b : BitVec 8) (n : Nat) : Mem := fun a =>
  if (a - d).toNat < n then b else m a

/-- One string instruction, which stores the low `size` bytes of `v`. -/
def stos (size : Nat) (d v : BitVec 32) (m : Mem) : Mem := fun a =>
  if (a - d).toNat < size then v.extractLsb' (8 * (a - d).toNat) 8 else m a

/-- `rep stos`, with the pointer moving upwards. -/
def repStos (size : Nat) : Nat → BitVec 32 → BitVec 32 → Mem → Mem
  | 0, _, _, m => m
  | count + 1, d, v, m => repStos size count (d + BitVec.ofNat 32 size) v (stos size d v m)

example (d v : BitVec 32) (m : Mem) : stos 4 d v m = store32 m d v := rfl

/-- The `size` low bytes of `v` are all `b`. -/
def Uniform (size : Nat) (v : BitVec 32) (b : BitVec 8) : Prop :=
  ∀ i < size, v.extractLsb' (8 * i) 8 = b

theorem uniform_byte (v : BitVec 32) : Uniform 1 v (v.setWidth 8) := by
  intro i first
  obtain rfl : i = 0 := by omega
  exact (BitVec.setWidth_eq_extractLsb' (by decide)).symm

/-- A byte that has been shifted up by `k` bytes is the byte number `k`. -/
theorem extractLsb'_shifted (b : BitVec 8) (k : Nat) {i : Nat} (inside : i < 4) :
    (b.setWidth 32 <<< (8 * k)).extractLsb' (8 * i) 8 = if i = k then b else 0 := by
  apply BitVec.eq_of_getLsbD_eq
  intro j low
  have bit : ((b.setWidth 32 <<< (8 * k)).extractLsb' (8 * i) 8).getLsbD j =
      (!decide (8 * i + j < 8 * k) && b.getLsbD (8 * i + j - 8 * k)) := by
    simp [low, show 8 * i + j < 32 by omega]
  rw [bit]
  rcases Nat.lt_trichotomy i k with below | rfl | above
  · simp [show 8 * i + j < 8 * k by omega, show i ≠ k by omega]
  · simp
  · have high : b.getLsbD (8 * i + j - 8 * k) = false := BitVec.getLsbD_of_ge _ _ (by omega)
    simp [high, show i ≠ k by omega]

section Window

variable {m : Mem} {d v : BitVec 32} {b : BitVec 8}

theorem filled_empty (m : Mem) (d : BitVec 32) (b : BitVec 8) : filled m d b 0 = m := by
  funext a
  exact if_neg (Nat.not_lt_zero _)

theorem filled_inside (m : Mem) (b : BitVec 8) {d a : BitVec 32} {n : Nat}
    (inside : (a - d).toNat < n) : filled m d b n a = b := if_pos inside

theorem filled_outside (m : Mem) (b : BitVec 8) {d a : BitVec 32} {n : Nat}
    (outside : ¬(a - d).toNat < n) : filled m d b n a = m a := if_neg outside

/-- An element of equal bytes at the end of the window makes it longer. -/
theorem stos_filled {size p : Nat} (uniform : Uniform size v b)
    (inside : p + size ≤ 4294967296) :
    stos size (d + BitVec.ofNat 32 p) v (filled m d b p) = filled m d b (p + size) := by
  funext a
  have element := offset_element a d inside
  unfold stos
  by_cases here : (a - (d + BitVec.ofNat 32 p)).toNat < size
  · rw [if_pos here, uniform _ here, filled_inside m b (element.mp here).2]
  · rw [if_neg here]
    by_cases before : (a - d).toNat < p
    · rw [filled_inside m b before, filled_inside m b (by omega)]
    · rw [filled_outside m b before, filled_outside m b (fun within => here (element.mpr
        ⟨by omega, within⟩))]

theorem repStos_extend {size : Nat} (uniform : Uniform size v b) (count p : Nat)
    (inside : p + count * size ≤ 4294967296) :
    repStos size count (d + BitVec.ofNat 32 p) v (filled m d b p) =
      filled m d b (p + count * size) := by
  induction count generalizing p with
  | zero => rw [repStos, Nat.zero_mul, Nat.add_zero]
  | succ count ih =>
    rw [Nat.succ_mul] at inside
    rw [repStos, stos_filled uniform (by omega), BitVec.add_assoc, ← BitVec.ofNat_add,
      ih (p + size) (by omega), Nat.succ_mul, Nat.add_assoc p, Nat.add_comm size]

/-- What is left depends on the length of the window alone, not on the size of an element. -/
theorem repStos_filled {size : Nat} (uniform : Uniform size v b) {count : Nat}
    (inside : count * size ≤ 4294967296) (d : BitVec 32) (m : Mem) :
    repStos size count d v m = filled m d b (count * size) := by
  have run := repStos_extend (m := m) (d := d) uniform count 0 (by omega)
  rwa [BitVec.add_zero, filled_empty, Nat.zero_add] at run

end Window

end Library
