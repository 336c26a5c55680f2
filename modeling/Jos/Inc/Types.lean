import Mathlib.Data.Nat.ModEq
import Mathlib.Tactic.Ring

/-!
# inc/types.h

The rounding macros, on values of 32 bits.
-/
namespace Jos

/-- Round down to the nearest multiple of `n`. -/
def ROUNDDOWN (a n : BitVec 32) : BitVec 32 := a - a % n

/-- Round up to the nearest multiple of `n`. -/
def ROUNDUP (a n : BitVec 32) : BitVec 32 := ROUNDDOWN (a + n - 1) n

/-- `b` is the least multiple of `n` that is no less than `a`. -/
structure LeastMultiple (n a b : Nat) : Prop where
  multiple : n ∣ b
  above : a ≤ b
  least : ∀ m, n ∣ m → a ≤ m → b ≤ m

theorem roundDown_toNat (a n : BitVec 32) :
    (ROUNDDOWN a n).toNat = n.toNat * (a.toNat / n.toNat) := by
  have whole := Nat.div_add_mod a.toNat n.toNat
  have below : a % n ≤ a := by
    rw [BitVec.le_def, BitVec.toNat_umod]
    exact Nat.mod_le _ _
  rw [ROUNDDOWN, BitVec.toNat_sub_of_le below, BitVec.toNat_umod]
  omega

/-- What is passed to `ROUNDDOWN`, with and without a carry out of the word. -/
theorem roundUp_toNat (a n : BitVec 32) (positive : 0 < n.toNat) :
    (ROUNDUP a n).toNat =
      if a.toNat + n.toNat ≤ 2 ^ 32 then n.toNat * ((a.toNat + n.toNat - 1) / n.toNat)
      else n.toNat * ((a.toNat + n.toNat - 1 - 2 ^ 32) / n.toNat) := by
  have sum : (a + n - 1).toNat = if a.toNat + n.toNat ≤ 2 ^ 32 then a.toNat + n.toNat - 1
      else a.toNat + n.toNat - 1 - 2 ^ 32 := by
    split <;> bv_omega
  rw [ROUNDUP, roundDown_toNat, sum]
  split <;> rfl

theorem leastMultiple_ceil {n : Nat} (a : Nat) (positive : 0 < n) :
    LeastMultiple n a (n * ((a + n - 1) / n)) where
  multiple := Nat.dvd_mul_right ..
  above := by
    have whole := Nat.div_add_mod (a + n - 1) n
    have short := Nat.mod_lt (a + n - 1) positive
    omega
  least := by
    rintro m ⟨k, rfl⟩ above
    refine Nat.mul_le_mul_left n ?_
    -- one multiple less would be below `a`
    rw [Nat.div_le_iff_le_mul_add_pred positive]
    omega

/-- With a carry `ROUNDUP` wraps around to a multiple below `a`. -/
theorem roundUp_carry {a n : BitVec 32} (positive : 0 < n.toNat)
    (carry : 2 ^ 32 < a.toNat + n.toNat) : ROUNDUP a n < a := by
  have below := Nat.mul_div_le (a.toNat + n.toNat - 1 - 2 ^ 32) n.toNat
  have bound := n.isLt
  rw [BitVec.lt_def, roundUp_toNat a n positive, if_neg (by omega)]
  omega

/-- `ROUNDUP` is right exactly as long as the sum that it starts with fits in a word. Beyond that
it wraps around below the address. -/
theorem roundUp_least_iff (a n : BitVec 32) (positive : 0 < n.toNat) :
    (LeastMultiple n.toNat a.toNat (ROUNDUP a n).toNat ↔ a.toNat + n.toNat ≤ 2 ^ 32) ∧
      (2 ^ 32 < a.toNat + n.toNat → ROUNDUP a n < a) := by
  refine ⟨⟨fun least => ?_, fun fits => ?_⟩, roundUp_carry positive⟩
  · by_contra carry
    have below := BitVec.lt_def.mp (roundUp_carry positive (by omega) : ROUNDUP a n < a)
    have above := least.above
    omega
  · rw [roundUp_toNat a n positive, if_pos fits]
    exact leastMultiple_ceil a.toNat positive

theorem roundUp_least_iff_page :
    LeastMultiple 4096 0xF0101001 (ROUNDUP 0xF0101001 4096).toNat ∧
      ROUNDUP 0xFFFFF001 4096 < (0xFFFFF001 : BitVec 32) :=
  ⟨(roundUp_least_iff 0xF0101001 4096 (by decide)).1.mpr (by decide),
    (roundUp_least_iff 0xFFFFF001 4096 (by decide)).2 (by decide)⟩

end Jos
