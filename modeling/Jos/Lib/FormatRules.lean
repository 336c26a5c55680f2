import Jos.Lib.EscapeFormats
import Jos.Lib.FormatText

/-!
# The formats that the kernel prints with

Rules for the text of a format that is written piece by piece: what stands between its escapes,
`%s`, `%d`, `%o` and `%08x`. `Renders fmt ap out` says that `fmt` uses up the arguments `ap` and
prints `out`.
-/
namespace Jos

open Library

def Renders (fmt : List UInt8) (ap : VaList) (out : List Int) : Prop :=
  formatText (directives fmt) ap = .ok (out, [])

/-- A text that is part of the format. -/
def plainText (s : List UInt8) : List Int := s.map fun b => (b.toNat : Int)

/-- `%08x` -/
def hexText (v : BitVec 32) : List Int := numberText .hexadecimal v.toNat 8 (ord '0')

/-- `%d` -/
def decimalText (v : BitVec 32) : List Int := signedText (v.signExtend 64) .decimal {}

/-- `%o`, which is signed. -/
def octalText (v : BitVec 32) : List Int := signedText (v.signExtend 64) .octal {}

theorem stringText_object {s : List UInt8} (noNul : 0 ∉ s) (short : s.length < 2147483648)
    (tail : List UInt8) : stringText {} (s ++ 0 :: tail) = .ok (s.map charInt) := by
  have whole : (s ++ 0 :: tail).takeWhile (· != 0) = s := takeWhile_nul noNul tail
  -- with no width nothing is padded
  have done : (countDown s.length (-1)).toNat = 0 := by
    rw [countDown_of_range _ _ (by omega) (by omega)]
    omega
  simp [stringText, readable, shown, whole, charText_plain, done]

namespace Renders

variable {fmt s : List UInt8} {ap : VaList} {out : List Int}

theorem nil : Renders [] [] [] := by
  rw [Renders, directives_nil]
  rfl

theorem text (plain : '%'.toUInt8 ∉ s) (rest : Renders fmt ap out) :
    Renders (s ++ fmt) ap (plainText s ++ out) := by
  induction s with
  | nil => exact rest
  | cons b s ih =>
    rw [List.mem_cons, not_or] at plain
    have later := ih plain.2
    rw [Renders] at later ⊢
    rw [List.cons_append, directives_text (Ne.symm plain.1)]
    simp [formatText, Directive.textOf, later, plainText]

theorem last (plain : '%'.toUInt8 ∉ s) : Renders (s ++ []) [] (plainText s) := by
  have whole := nil.text plain
  rwa [List.append_nil (plainText s)] at whole

theorem plain (noPercent : '%'.toUInt8 ∉ s) : Renders s [] (plainText s) := by
  have whole := last noPercent
  rwa [List.append_nil] at whole

/-- An escape whose flags leave `flags`, whatever arguments there are. -/
theorem escape (flagBytes : List UInt8) (c : UInt8) (flags : Flags) {k : Conversion}
    (all : ∀ b ∈ flagBytes, isFlag b = true) (ended : conversion? c = some k)
    (applied : applyFlags flagBytes {} ap = .ok (flags, ap)) {ap' : VaList} {own : List Int}
    (converted : convertText flags ap k = .ok (own, ap')) (rest : Renders fmt ap' out) :
    Renders ('%'.toUInt8 :: (flagBytes ++ c :: fmt)) ap (own ++ out) := by
  rw [Renders] at rest ⊢
  rw [directives_escape all ended]
  simp [formatText, Directive.textOf, applied, converted, rest]

theorem string {addr : BitVec 32} (nonnull : addr ≠ 0) (noNul : 0 ∉ s)
    (short : s.length < 2147483648) (tail : List UInt8) (rest : Renders fmt ap out) :
    Renders (literal "%s" ++ fmt) (.ptr addr (s ++ 0 :: tail) :: ap) (s.map charInt ++ out) := by
  have argument : vaString (.ptr addr (s ++ 0 :: tail) :: ap) =
      .ok (some (s ++ 0 :: tail), ap) := by
    rw [vaString, if_neg nonnull]
  have converted : convertText {} (.ptr addr (s ++ 0 :: tail) :: ap) .string =
      .ok (s.map charInt, ap) := by
    simp [convertText, argument, stringText_object noNul short tail]
  exact escape [] 's'.toUInt8 {} (by simp) (by decide) (by simp [applyFlags]) converted rest

theorem decimal (v : BitVec 32) (rest : Renders fmt ap out) :
    Renders (literal "%d" ++ fmt) (.word v :: ap) (decimalText v ++ out) := by
  have converted : convertText {} (.word v :: ap) .decimal = .ok (decimalText v, ap) := rfl
  exact escape [] 'd'.toUInt8 {} (by simp) (by decide) (by simp [applyFlags]) converted rest

theorem octal (v : BitVec 32) (rest : Renders fmt ap out) :
    Renders (literal "%o" ++ fmt) (.word v :: ap) (octalText v ++ out) := by
  have converted : convertText {} (.word v :: ap) .octal = .ok (octalText v, ap) := rfl
  exact escape [] 'o'.toUInt8 {} (by simp) (by decide) (by simp [applyFlags]) converted rest

theorem hex (v : BitVec 32) (rest : Renders fmt ap out) :
    Renders (literal "%08x" ++ fmt) (.word v :: ap) (hexText v ++ out) := by
  have flags : ∀ b ∈ literal "08", isFlag b = true := by decide +kernel
  have applied : ∀ ap, applyFlags (literal "08") {} ap =
      .ok ({ padc := ord '0', width := 8 }, ap) := by
    intro ap
    rw [show literal "08" = '0'.toUInt8 :: (decimalBytes 8 ++ []) by decide +kernel,
      applyFlags_zero, applyFlags_decimal (by decide) [] rfl, applyFlags_nil]
    rfl
  have converted : convertText { padc := ord '0', width := 8 } (.word v :: ap) .hex =
      .ok (hexText v, ap) := by
    have wide : (BitVec.zeroExtend 64 v).toNat = v.toNat := BitVec.toNat_setWidth_of_le (by decide)
    rw [hexText, ← wide]
    rfl
  exact escape (literal "08") 'x'.toUInt8 _ flags (by decide) (applied _) converted rest

end Renders

end Jos
