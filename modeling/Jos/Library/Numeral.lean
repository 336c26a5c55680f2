import Mathlib.Data.Nat.Digits.Lemmas

/-!
# Positional numerals

The digits of a number, most significant first, with one digit for zero. Reading them back
by Horner's rule gives the number, also when every step is only computed modulo some `m`.
-/
namespace Library

def numeral (b n : Nat) : List Nat := if n = 0 then [0] else (Nat.digits b n).reverse

/-- Horner's rule. -/
def horner (b : Nat) (ds : List Nat) : Nat := ds.foldl (fun v d => v * b + d) 0

variable {b n : Nat}

theorem numeral_of_lt (small : n < b) : numeral b n = [n] := by
  unfold numeral
  split
  · next zero => rw [zero]
  · next nonzero => rw [Nat.digits_of_lt b n nonzero small, List.reverse_singleton]

theorem numeral_of_le (base : 2 ≤ b) (large : b ≤ n) :
    numeral b n = numeral b (n / b) ++ [n % b] := by
  have nonzero : n ≠ 0 := by omega
  have quotient : n / b ≠ 0 := Nat.ne_of_gt (Nat.div_pos large (by omega))
  rw [numeral, if_neg nonzero, numeral, if_neg quotient,
    Nat.digits_def' (by omega) (Nat.pos_of_ne_zero nonzero), List.reverse_cons]

theorem numeral_lt (base : 2 ≤ b) : ∀ d ∈ numeral b n, d < b := by
  intro d member
  unfold numeral at member
  split at member
  · rw [List.mem_singleton.mp member]
    omega
  · exact Nat.digits_lt_base (by omega) (List.mem_reverse.mp member)

theorem numeral_ne_nil (b n : Nat) : numeral b n ≠ [] := by
  unfold numeral
  split
  · simp
  · next nonzero =>
    rw [ne_eq, List.reverse_eq_nil_iff]
    exact Nat.digits_ne_nil_iff_ne_zero.mpr nonzero

theorem length_numeral_le (base : 2 ≤ b) {k : Nat} (positive : 0 < k) (bound : n < b ^ k) :
    (numeral b n).length ≤ k := by
  unfold numeral
  split
  · exact positive
  · rw [List.length_reverse]
    exact (Nat.digits_length_le_iff (by omega) n).mpr bound

/-- The number of digits. -/
def digitCount (b n : Nat) : Nat := if n = 0 then 1 else Nat.log b n + 1

theorem length_numeral (base : 2 ≤ b) (n : Nat) : (numeral b n).length = digitCount b n := by
  unfold numeral digitCount
  split
  · rfl
  · next nonzero => rw [List.length_reverse, Nat.length_digits b n (by omega) nonzero]

/-- Only zero has a leading zero. -/
theorem head?_numeral (leading : (numeral b n).head? = some 0) : n = 0 := by
  by_contra nonzero
  rw [numeral, if_neg nonzero, List.head?_reverse] at leading
  obtain ⟨nonempty, last⟩ := List.mem_getLast?_eq_getLast leading
  exact Nat.getLast_digit_ne_zero b nonzero last.symm

theorem horner_numeral (b n : Nat) : horner b (numeral b n) = n := by
  unfold numeral
  split
  · next zero => simp [horner, zero]
  · rw [horner, List.foldl_reverse]
    calc
      _ = Nat.ofDigits b (Nat.digits b n) := by
        rw [Nat.ofDigits_eq_foldr]
        congr 1
        funext d v
        simp only [Nat.cast_id]
        ring
      _ = n := Nat.ofDigits_digits b n

/-- The numeral of a number: as many digits as it needs, no leading zero, its value. -/
structure Canonical (b n : Nat) (ds : List Nat) : Prop where
  count : ds.length = digitCount b n
  below : ∀ d ∈ ds, d < b
  leading : ds.head? = some 0 → n = 0
  value : horner b ds = n

theorem canonical_numeral (base : 2 ≤ b) (n : Nat) : Canonical b n (numeral b n) where
  count := length_numeral base n
  below := numeral_lt base
  leading := head?_numeral
  value := horner_numeral b n

end Library
