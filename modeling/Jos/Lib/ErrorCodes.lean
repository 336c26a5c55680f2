import Jos.Lib.EscapeFormats
import Jos.Lib.NumberText

/-!
# The conversion `%e`

An error code is printed by its absolute value: a text of the table, or its decimal numeral. The
least `int` has no absolute value. It passes the test against `MAXERROR`, which bounds the index
on one side only, and the index is outside the table. On an i386 its address wraps around to that
of entry 0, which is null, and the text is `error -2147483648`.
-/
namespace Jos

open Library

/-- The text for an error code of this absolute value. -/
def errorMessage (n : Nat) : List Int :=
  match errorString[n]? with
  | some (some p) => p.map charInt
  | _ => (literal "error ").map charInt ++ digitsText .decimal n

/-- `err` after `if (err < 0) err = -err;` -/
def absError (e : BitVec 32) : Int := if e.toInt < 0 then int32 (-e.toInt) else e.toInt

/-- The index at which the table is read, unless the code is too large. -/
def errorIndex (e : BitVec 32) : Option Int :=
  if absError e ≥ MAXERROR then none else some (absError e)

/-- `case 'e'` reads the table at this index and nowhere else. -/
theorem putError_index {σ : Type} (printfmt : List UInt8 → σ → VaList → Exec (σ × VaList))
    (e : BitVec 32) (d : σ) :
    let unknown := (·.1) <$> printfmt (literal "error %d" ++ [0]) d
      [.word (.ofInt 32 (absError e))]
    putError printfmt e.toInt d = (errorIndex e).elim unknown fun i =>
      readAt errorString i >>= fun entry => entry.elim unknown fun p =>
        (·.1) <$> printfmt (literal "%s" ++ [0]) d [.ptr 1 (p ++ [0])] := by
  intro unknown
  unfold putError errorIndex
  rw [← absError]
  by_cases large : absError e ≥ MAXERROR
  · rw [if_pos large, if_pos large]
    rfl
  · rw [if_neg large, if_neg large]
    apply bind_congr
    intro entry
    cases entry <;> rfl

theorem length_errorString : (errorString.length : Int) = MAXERROR := rfl

section Negatable

variable {e : BitVec 32} (negatable : e.toInt ≠ -2147483648)
include negatable

theorem absError_eq : absError e = e.toInt.natAbs := by
  have low := e.le_toInt
  have high := e.toInt_lt
  unfold absError
  split
  · rw [int32_of_range (by omega) (by omega)]
    omega
  · omega

/-- The nested `%d` prints the numeral without a sign. -/
theorem unknownText : signedText ((BitVec.ofInt 32 (absError e)).signExtend 64) .decimal {} =
    digitsText .decimal e.toInt.natAbs := by
  have low := e.le_toInt
  have high := e.toInt_lt
  have value : ((BitVec.ofInt 32 (absError e)).signExtend 64).toInt = e.toInt.natAbs := by
    rw [absError_eq negatable, BitVec.toInt_signExtend_of_le (by decide)]
    exact BitVec.toInt_ofInt_eq_self (by decide) (by omega) (by omega)
  have unsigned : ¬((e.toInt.natAbs : Nat) : Int) < 0 := Int.not_lt.mpr (Int.natCast_nonneg _)
  rw [signedText_eq, signText, value, if_neg unsigned, List.nil_append, Int.natAbs_natCast]
  exact numberText_unpadded .decimal (by omega) (by decide) (by simp) _

theorem errorText_eq : errorText e.toInt = .ok (errorMessage e.toInt.natAbs) := by
  unfold errorText errorMessage
  rw [← absError]
  dsimp only
  rw [unknownText negatable, absError_eq negatable]
  have table := length_errorString
  by_cases large : (e.toInt.natAbs : Int) ≥ MAXERROR
  · have absent : errorString[e.toInt.natAbs]? = none := by
      rw [List.getElem?_eq_none_iff]
      omega
    rw [if_pos large, absent]
    rfl
  · have inside : e.toInt.natAbs < errorString.length := by omega
    rw [if_neg large, readAt_natCast inside, List.getElem?_eq_getElem inside]
    cases errorString[e.toInt.natAbs] <;> rfl

end Negatable

/-- The least `int` is its own negation, and no index of the table. -/
theorem errorText_intMin : errorText (0x80000000#32).toInt = .error .outOfBounds := by rfl

/-! ### Both signs -/

theorem toInt_neg {e : BitVec 32} (negatable : e.toInt ≠ -2147483648) :
    (-e).toInt = -e.toInt := by
  have low := e.le_toInt
  have high := e.toInt_lt
  rw [BitVec.toInt_neg]
  exact int32_of_range (by omega) (by omega)

theorem emitted_error (e : BitVec 32) (ap : VaList) (out : List Int) :
    emitted (literal "%e") (.word e :: ap) = .ok (out, ap) ↔ errorText e.toInt = .ok out := by
  have format : literal "%e" = escapeFormat [] 'e' := rfl
  rw [format, emitted_escape (by simp) (show conversion? 'e'.toUInt8 = some .error by decide)
    (applyFlags_nil {} (.word e :: ap)), convertText, vaInt]
  simp only [Exec.ok_bind]
  cases errorText e.toInt with
  | error fault => simp
  | ok text => simp

/-- `%e` prints the message of the code for either sign of it, and reads the table inside. -/
structure ErrorsAlike (e : BitVec 32) (ap : VaList) : Prop where
  inside : ∀ i, errorIndex e = some i → 0 ≤ i ∧ i < MAXERROR
  printed : emitted (literal "%e") (.word e :: ap) = .ok (errorMessage e.toInt.natAbs, ap)
  negated : emitted (literal "%e") (.word (-e) :: ap) = .ok (errorMessage e.toInt.natAbs, ap)

theorem not_errorsAlike_intMin (ap : VaList) : ¬ErrorsAlike 0x80000000#32 ap := by
  intro alike
  have read := (emitted_error _ ap _).mp alike.printed
  rw [errorText_intMin] at read
  cases read

/-- Every code but the least `int` is printed alike with either sign. -/
theorem errorsAlike_iff (e : BitVec 32) (ap : VaList) : ErrorsAlike e ap ↔ e ≠ 0x80000000#32 := by
  constructor
  · rintro alike rfl
    exact not_errorsAlike_intMin ap alike
  · intro other
    have negatable : e.toInt ≠ -2147483648 := fun least => other (BitVec.eq_of_toInt_eq least)
    have opposite := toInt_neg negatable
    have high := e.toInt_lt
    refine ⟨?_, (emitted_error e ap _).mpr (errorText_eq negatable), ?_⟩
    · intro i read
      rw [errorIndex, absError_eq negatable] at read
      split at read
      · cases read
      · cases read
        omega
    · have message := errorText_eq (e := -e) (by omega)
      rw [opposite, Int.natAbs_neg, ← opposite] at message
      exact (emitted_error (-e) ap _).mpr message

/-- The index -2147483648 is outside the table. -/
theorem errorsAlike_intMin :
    errorIndex 0x80000000#32 = some (-2147483648) ∧ ¬ErrorsAlike 0x80000000#32 [] :=
  ⟨by decide, not_errorsAlike_intMin []⟩

end Jos
