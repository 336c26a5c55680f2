import Jos.Lib.FormatText

/-!
# What printnum prints

The padding that a width leaves room for and the canonical numeral, after a sign or a prefix
that `vprintfmt` has printed before.
-/
namespace Jos

open Library

def digitsText (base : Base) (num : Nat) : List Int := (numeral base.value num).map digitCode

theorem length_digitsText (base : Base) (num : Nat) :
    (digitsText base num).length = digitCount base.value num := by
  rw [digitsText, List.length_map, length_numeral base.two_le]

section Width

variable (base : Base) {num : Nat} (bound : num < 2 ^ 64)
include bound

theorem digitCount_le : digitCount base.value num ≤ 64 := by
  rw [← length_numeral base.two_le]
  exact length_numeral_le base.two_le (by decide)
    (Nat.lt_of_lt_of_le bound (Nat.pow_le_pow_left base.two_le 64))

variable {width : Int} (low : -2147483648 + 64 < width) (high : width < 2147483648) (padc : Int)
include low high

/-- In this range the width is counted down without wrapping. -/
theorem numberText_eq : numberText base num width padc =
    List.replicate (width - digitCount base.value num).toNat padc ++ digitsText base num := by
  have short := digitCount_le base bound
  rw [numberText, length_numeral base.two_le, int32_of_range (by omega) (by omega)]
  rfl

/-- `printnum` prints the canonical numeral, after as much padding as it leaves room for. -/
theorem printnum_canonical :
    ∃ ds, Canonical base.value num ds ∧
      ∀ (σ : Type) (putch : Putch σ) (d : σ), printnum putch num base width padc d =
        putAll putch (List.replicate (width - ds.length).toNat padc ++ ds.map digitCode) d := by
  refine ⟨numeral base.value num, canonical_numeral base.two_le num, ?_⟩
  intro σ putch d
  rw [printnum_text, numberText_eq base bound low high, length_numeral base.two_le, digitsText]

end Width

theorem printnum_canonical_hex :
    ∃ ds, Canonical 16 0xbeef ds ∧
      ∀ (σ : Type) (putch : Putch σ) (d : σ), printnum putch 0xbeef .hexadecimal 8 48 d =
        putAll putch (List.replicate ((8 : Int) - ds.length).toNat 48 ++ ds.map digitCode) d :=
  printnum_canonical .hexadecimal (by decide) (by decide) (by decide) 48

/-- A width that the digits fill pads nothing. -/
theorem numberText_unpadded (base : Base) {num : Nat} (bound : num < 2 ^ 64) {width : Int}
    (low : -1 ≤ width) (narrow : width ≤ digitCount base.value num) (padc : Int) :
    numberText base num width padc = digitsText base num := by
  have short := digitCount_le base bound
  rw [numberText_eq base bound (by omega) (by omega), Int.toNat_of_nonpos (by omega)]
  rfl

/-! ### Conversions that print a number -/

/-- A conversion that prints `lead` and then a number. -/
def PrintsNumber (k : Conversion) (longs : Nat) (ap rest : VaList) (lead : List Int) (base : Base)
    (num : Nat) : Prop :=
  ∀ flags : Flags, flags.lflag = longs → convertText flags ap k =
    .ok (lead ++ numberText base num flags.width flags.padc, rest)

def signText (num : BitVec 64) : List Int := if num.toInt < 0 then [ord '-'] else []

theorem natAbs_lt (num : BitVec 64) : num.toInt.natAbs < 2 ^ 64 := by
  have low := num.le_toInt
  have high := num.toInt_lt
  omega

theorem signedText_eq (num : BitVec 64) (base : Base) (flags : Flags) :
    signedText num base flags =
      signText num ++ numberText base num.toInt.natAbs flags.width flags.padc := by
  have bits := BitVec.toInt_eq_toNat_cond num
  have bound := num.isLt
  unfold signedText signText
  split
  · next negative =>
    have opposite : (-num).toNat = num.toInt.natAbs := by
      rw [BitVec.toNat_neg]
      split at bits <;> omega
    rw [opposite]
    rfl
  · next nonneg =>
    have value : num.toNat = num.toInt.natAbs := by
      split at bits <;> omega
    rw [value]
    rfl

section Conversions

variable {longs : Nat} {ap rest : VaList}

theorem decimal_printsNumber {num : BitVec 64} (argument : getint ap longs = .ok (num, rest)) :
    PrintsNumber .decimal longs ap rest (signText num) .decimal num.toInt.natAbs := by
  rintro flags rfl
  rw [convertText, argument, ← signedText_eq]
  rfl

theorem octal_printsNumber {num : BitVec 64} (argument : getint ap longs = .ok (num, rest)) :
    PrintsNumber .octal longs ap rest (signText num) .octal num.toInt.natAbs := by
  rintro flags rfl
  rw [convertText, argument, ← signedText_eq]
  rfl

theorem unsigned_printsNumber {num : BitVec 64} (argument : getuint ap longs = .ok (num, rest)) :
    PrintsNumber .unsigned longs ap rest [] .decimal num.toNat := by
  rintro flags rfl
  rw [convertText, argument]
  rfl

theorem hex_printsNumber {num : BitVec 64} (argument : getuint ap longs = .ok (num, rest)) :
    PrintsNumber .hex longs ap rest [] .hexadecimal num.toNat := by
  rintro flags rfl
  rw [convertText, argument]
  rfl

theorem pointer_printsNumber {v : BitVec 32} (argument : vaInt ap = .ok (v, rest)) :
    PrintsNumber .pointer longs ap rest [ord '0', ord 'x'] .hexadecimal v.toNat := by
  rintro flags rfl
  rw [convertText, argument]
  rfl

end Conversions

end Jos
