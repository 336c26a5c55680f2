import Jos.Library.Fill
import Mathlib.Tactic.IntervalCases

/-!
# lib/string.c: memset

The version with string instructions stores words where the address and the length allow it,
bytes otherwise; the version under `#else` stores one byte at a time. Each of them fills the
same window.
-/
namespace Jos

open Library

/-- `c &= 0xFF; c = (c<<24)|(c<<16)|(c<<8)|c;` -/
def fillPattern (c : BitVec 32) : BitVec 32 :=
  let c := c &&& 0xFF
  (c <<< 24) ||| (c <<< 16) ||| (c <<< 8) ||| c

def memset (v c n : BitVec 32) (m : Mem) : Mem :=
  if n = 0 then m
  else if v.toInt.tmod 4 = 0 ∧ n.toNat % 4 = 0 then
    -- cld; rep stosl
    repStos 4 (n.toNat / 4) v (fillPattern c) m
  else
    -- cld; rep stosb
    repStos 1 n.toNat v c m

/-- The one count that the decrement does not lower becomes negative. -/
theorem pred_lt {m : BitVec 32} (more : 0 ≤ (m - 1).toInt) : (m - 1).toNat < m.toNat := by
  have nonzero : m ≠ 0 := by
    rintro rfl
    exact absurd more (by decide)
  bv_omega

/-- `while (--m >= 0) *p++ = c;` -/
def fillBytes (c p m : BitVec 32) (mem : Mem) : Mem :=
  if 0 ≤ (m - 1).toInt then
    fillBytes c (p + 1) (m - 1) (Function.update mem p (c.setWidth 8))
  else mem
termination_by m.toNat
decreasing_by exact pred_lt ‹_›

def memsetPortable (v c n : BitVec 32) (mem : Mem) : Mem := fillBytes c v n mem

/-- A store of one byte is an assignment. -/
theorem stos_byte (d v : BitVec 32) (m : Mem) :
    stos 1 d v m = Function.update m d (v.setWidth 8) := by
  funext a
  unfold stos
  by_cases here : a = d
  · subst here
    have first : (a - a).toNat < 1 := offset_first.mpr rfl
    rw [if_pos first, uniform_byte v _ first, Function.update_self]
  · rw [if_neg (fun first => here (offset_first.mp first)), Function.update_of_ne here]

/-- A count that an `int` holds is counted down to 0. -/
theorem fillBytes_eq_repStos (c : BitVec 32) (k : Nat) (p m : BitVec 32) (mem : Mem)
    (count : m.toNat = k) (small : k < 2147483648) :
    fillBytes c p m mem = repStos 1 k p c mem := by
  induction k generalizing p m mem with
  | zero =>
    obtain rfl : m = 0 := BitVec.eq_of_toNat_eq count
    have done : ¬0 ≤ ((0 : BitVec 32) - 1).toInt := by decide
    rw [fillBytes, if_neg done, repStos]
  | succ k ih =>
    have rest : (m - 1).toNat = k := by bv_omega
    have more : 0 ≤ (m - 1).toInt := by
      rw [BitVec.toInt_eq_toNat_of_lt (by omega)]
      exact Int.natCast_nonneg _
    rw [fillBytes, if_pos more, ih (p + 1) (m - 1) _ rest (by omega), repStos, stos_byte]
    rfl

/-! ### Every path fills the range -/

/-- The mask leaves the low byte; the sign of `c` is gone. -/
theorem mask_eq_setWidth (c : BitVec 32) : c &&& 0xFF = (c.setWidth 8).setWidth 32 := by
  have ones : (0xFF : BitVec 32).toNat = 2 ^ 8 - 1 := rfl
  apply BitVec.eq_of_toNat_eq
  rw [BitVec.toNat_and, ones, Nat.and_two_pow_sub_one_eq_mod, BitVec.toNat_setWidth,
    BitVec.toNat_setWidth]
  omega

theorem uniform_fillPattern (c : BitVec 32) : Uniform 4 (fillPattern c) (c.setWidth 8) := by
  intro i inside
  have unshifted := extractLsb'_shifted (c.setWidth 8) 0 inside
  rw [Nat.mul_zero, BitVec.shiftLeft_zero] at unshifted
  unfold fillPattern
  dsimp only
  rw [mask_eq_setWidth, BitVec.extractLsb'_or, BitVec.extractLsb'_or, BitVec.extractLsb'_or,
    extractLsb'_shifted _ 3 inside, extractLsb'_shifted _ 2 inside,
    extractLsb'_shifted _ 1 inside, unshifted]
  -- one of the four terms has its byte here, the others are 0
  interval_cases i <;> simp

section Paths

variable (v c : BitVec 32) {n : BitVec 32} (m : Mem)

theorem stosb_filled : repStos 1 n.toNat v c m = filled m v (c.setWidth 8) n.toNat := by
  have bound := n.isLt
  have run := repStos_filled (uniform_byte c) (by omega : n.toNat * 1 ≤ _) v m
  rwa [Nat.mul_one] at run

theorem stosl_filled (words : n.toNat % 4 = 0) :
    repStos 4 (n.toNat / 4) v (fillPattern c) m = filled m v (c.setWidth 8) n.toNat := by
  have bound := n.isLt
  have whole : n.toNat / 4 * 4 = n.toNat := by omega
  have run := repStos_filled (uniform_fillPattern c) (by omega : n.toNat / 4 * 4 ≤ _) v m
  rwa [whole] at run

theorem memset_filled (n : BitVec 32) : memset v c n m = filled m v (c.setWidth 8) n.toNat := by
  unfold memset
  split
  · next empty =>
    subst empty
    exact (filled_empty m v _).symm
  · split
    · next words => exact stosl_filled v c m words.2
    · exact stosb_filled v c m

theorem memsetPortable_filled (small : n.toNat < 2147483648) :
    memsetPortable v c n m = filled m v (c.setWidth 8) n.toNat := by
  rw [memsetPortable, fillBytes_eq_repStos c n.toNat v n m rfl small]
  exact stosb_filled v c m

end Paths

section Correct

variable {v n : BitVec 32} (c : BitVec 32) (m : Mem)

/-- Storing an `int` into a byte keeps its value modulo 256. -/
theorem setWidth_toNat : ((c.setWidth 8).toNat : Int) = c.toInt % 256 := by
  have signed := BitVec.toInt_eq_toNat_cond c
  rw [BitVec.toNat_setWidth]
  split at signed <;> omega

theorem memset_inside (n : BitVec 32) {i : Nat} (inside : i < n.toNat) :
    memset v c n m (v + BitVec.ofNat 32 i) = c.setWidth 8 := by
  have bound := n.isLt
  have offset := offset_toNat v (by omega : i < 4294967296)
  rw [memset_filled]
  exact filled_inside m _ (by omega)

variable (bound : v.toNat + n.toNat ≤ 4294967296)
include bound

theorem memset_outside {a : BitVec 32} (outside : a.toNat < v.toNat ∨ v.toNat + n.toNat ≤ a.toNat) :
    memset v c n m a = m a := by
  rw [memset_filled]
  exact filled_outside m _ (offset_outside bound outside)

/-- `memset` sets the bytes of its range to `c` modulo 256 and leaves every other byte alone. Whole
words leave what single bytes do, and so does the portable version for a length that is an
`int`. -/
theorem memset_correct :
    (∀ i < n.toNat, ((memset v c n m (v + BitVec.ofNat 32 i)).toNat : Int) = c.toInt % 256) ∧
      (∀ a, a.toNat < v.toNat ∨ v.toNat + n.toNat ≤ a.toNat → memset v c n m a = m a) ∧
      (n.toNat % 4 = 0 →
        repStos 4 (n.toNat / 4) v (fillPattern c) m = repStos 1 n.toNat v c m) ∧
      (n.toNat < 2147483648 → memset v c n m = memsetPortable v c n m) := by
  refine ⟨?_, ?_, ?_, ?_⟩
  · intro i inside
    rw [memset_inside c m n inside, setWidth_toNat]
  · intro a outside
    exact memset_outside c m bound outside
  · intro words
    rw [stosl_filled v c m words, stosb_filled]
  · intro small
    rw [memset_filled, memsetPortable_filled v c m small]

end Correct

/-- Eight bytes at an aligned address, and a negative `int`: two words. -/
theorem memset_correct_words :
    let m : Mem := fun a => a.setWidth 8
    (∀ i < (8 : BitVec 32).toNat,
      ((memset 0x1000 (-2) 8 m (0x1000 + BitVec.ofNat 32 i)).toNat : Int) =
        (-2 : BitVec 32).toInt % 256) ∧
      (∀ a, a.toNat < (0x1000 : BitVec 32).toNat ∨
        (0x1000 : BitVec 32).toNat + (8 : BitVec 32).toNat ≤ a.toNat →
          memset 0x1000 (-2) 8 m a = m a) ∧
      ((8 : BitVec 32).toNat % 4 = 0 →
        repStos 4 ((8 : BitVec 32).toNat / 4) 0x1000 (fillPattern (-2)) m =
          repStos 1 (8 : BitVec 32).toNat 0x1000 (-2) m) ∧
      ((8 : BitVec 32).toNat < 2147483648 →
        memset 0x1000 (-2) 8 m = memsetPortable 0x1000 (-2) 8 m) :=
  memset_correct (-2) _ (by decide)

/-! ### The kernel's BSS -/

/-- `memset(edata, 0, end - edata)`, the first call of `i386_init`. -/
def clearBss (edata bssEnd : BitVec 32) (m : Mem) : Mem := memset edata 0 (bssEnd - edata) m

/-- All static variables start out zero, and nothing else changes. -/
theorem clearBss_eq {edata bssEnd : BitVec 32} (ordered : edata.toNat ≤ bssEnd.toNat) (m : Mem)
    (a : BitVec 32) : clearBss edata bssEnd m a =
      if edata.toNat ≤ a.toNat ∧ a.toNat < bssEnd.toNat then 0 else m a := by
  have length : (bssEnd - edata).toNat = bssEnd.toNat - edata.toNat := by bv_omega
  unfold clearBss
  split
  · next inside =>
    have place : edata + BitVec.ofNat 32 (a.toNat - edata.toNat) = a := by bv_omega
    have byte := memset_inside (v := edata) 0 m (bssEnd - edata)
      (by omega : a.toNat - edata.toNat < (bssEnd - edata).toNat)
    rw [place] at byte
    exact byte
  · next outside =>
    have limit := bssEnd.isLt
    exact memset_outside 0 m (by omega) (by omega)

end Jos
