import Mathlib.Order.Compare
import Mathlib.Data.List.Lex
import Mathlib.Data.Nat.Cast.Order.Ring
import Mathlib.Algebra.Order.Ring.Int
import Mathlib.Algebra.Order.Group.Unbundled.Basic

/-!
# Three-way comparison

A comparison function answers with an integer whose sign tells how its arguments compare. Only
the sign is determined, so the laws of the order come back as laws of signs.
-/
namespace Library

variable {α : Type*} [LinearOrder α] {x y z : Int} {a b c : α}

/-- The sign of `x` tells how `a` compares with `b`. -/
def ThreeWay (x : Int) (a b : α) : Prop := cmp x 0 = cmp a b

namespace ThreeWay

theorem neg_iff (answer : ThreeWay x a b) : x < 0 ↔ a < b := lt_iff_lt_of_cmp_eq_cmp answer

theorem eq_zero_iff (answer : ThreeWay x a b) : x = 0 ↔ a = b := eq_iff_eq_of_cmp_eq_cmp answer

theorem nonpos_iff (answer : ThreeWay x a b) : x ≤ 0 ↔ a ≤ b := le_iff_le_of_cmp_eq_cmp answer

theorem pos_iff (answer : ThreeWay x a b) : 0 < x ↔ b < a :=
  lt_iff_lt_of_cmp_eq_cmp (cmp_eq_cmp_symm.mp answer)

theorem of_lt (less : a < b) (negative : x < 0) : ThreeWay x a b :=
  negative.cmp_eq_lt.trans less.cmp_eq_lt.symm

theorem of_gt (greater : b < a) (positive : 0 < x) : ThreeWay x a b :=
  positive.cmp_eq_gt.trans greater.cmp_eq_gt.symm

theorem refl (a : α) : ThreeWay 0 a a := (cmp_self_eq_eq 0).trans (cmp_self_eq_eq a).symm

/-- Answers to the same comparison have the same sign. -/
theorem sign_eq (first : ThreeWay x a b) (second : ThreeWay y a b) : x.sign = y.sign := by
  rcases lt_trichotomy a b with less | same | greater
  · rw [Int.sign_eq_neg_one_of_neg (first.neg_iff.mpr less),
      Int.sign_eq_neg_one_of_neg (second.neg_iff.mpr less)]
  · rw [first.eq_zero_iff.mpr same, second.eq_zero_iff.mpr same]
  · rw [Int.sign_eq_one_of_pos (first.pos_iff.mpr greater),
      Int.sign_eq_one_of_pos (second.pos_iff.mpr greater)]

theorem swap (answer : ThreeWay x a b) : ThreeWay (-x) b a := by
  rcases lt_trichotomy a b with less | rfl | greater
  · exact of_gt less (Int.neg_pos_of_neg (answer.neg_iff.mpr less))
  · rw [answer.eq_zero_iff.mpr rfl]
    exact refl a
  · exact of_lt greater (Int.neg_neg_of_pos (answer.pos_iff.mpr greater))

theorem sign_swap (answer : ThreeWay x a b) (swapped : ThreeWay y b a) : y.sign = -x.sign := by
  rw [swapped.sign_eq answer.swap, Int.sign_neg]

theorem trans (first : ThreeWay x a b) (second : ThreeWay y b c) (whole : ThreeWay z a c)
    (below : x ≤ 0) (above : y ≤ 0) : z ≤ 0 ∧ (x < 0 ∨ y < 0 → z < 0) := by
  rw [first.nonpos_iff] at below
  rw [second.nonpos_iff] at above
  rw [whole.nonpos_iff, first.neg_iff, second.neg_iff, whole.neg_iff]
  refine ⟨below.trans above, ?_⟩
  rintro (less | less)
  · exact less.trans_le above
  · exact below.trans_lt less

/-- The difference of two naturals is an answer. -/
theorem sub (a b : Nat) : ThreeWay ((a : Int) - b) a b := by
  rw [ThreeWay, cmp_sub_zero]
  exact Nat.strictMono_cast.cmp_map_eq a b

/-! ### Lexicographic comparison -/

variable {s t : List α}

theorem nil_cons (b : α) (t : List α) (negative : x < 0) : ThreeWay x [] (b :: t) :=
  of_lt (List.nil_lt_cons b t) negative

theorem cons_nil (a : α) (s : List α) (positive : 0 < x) : ThreeWay x (a :: s) [] :=
  of_gt (List.nil_lt_cons a s) positive

/-- Equal heads decide nothing. -/
theorem cons_self (a : α) (answer : ThreeWay x s t) : ThreeWay x (a :: s) (a :: t) := by
  rcases lt_trichotomy s t with less | rfl | greater
  · exact of_lt (List.cons_lt_cons_iff.mpr (.inr ⟨rfl, less⟩)) (answer.neg_iff.mpr less)
  · rw [answer.eq_zero_iff.mpr rfl]
    exact refl _
  · exact of_gt (List.cons_lt_cons_iff.mpr (.inr ⟨rfl, greater⟩)) (answer.pos_iff.mpr greater)

/-- Different heads decide alone. -/
theorem cons_of_ne (different : a ≠ b) (answer : ThreeWay x a b) (s t : List α) :
    ThreeWay x (a :: s) (b :: t) := by
  rcases different.lt_or_gt with less | greater
  · exact of_lt (List.cons_lt_cons_iff.mpr (.inl less)) (answer.neg_iff.mpr less)
  · exact of_gt (List.cons_lt_cons_iff.mpr (.inl greater)) (answer.pos_iff.mpr greater)

end ThreeWay

end Library
