import Jos.Lib.Snprintf
import Jos.Lib.NumberWidth
import Jos.Lib.StringWidth

/-!
# Numbers in the format and through `*`

A width and a precision that are written in the format are the same as from the arguments,
unless they are zero: a zero is read as the flag `0`. A width is zero anyway after the `.`; a
precision of zero is lost, and the field is padded with zeros.
-/
namespace Jos

open Library

/-! ### Operands -/

/-- What a conversion prints, with its sign or prefix. -/
inductive Operand where
  | number (lead : List Int) (base : Base) (num : Nat) (bound : num < 2 ^ 64)
  | string (str : CString) (tail : List UInt8)

def Operand.text (flags : Flags) : Operand → Exec (List Int)
  | .number lead base num _ => .ok (lead ++ numberText base num flags.width flags.padc)
  | .string str tail => stringText flags (str.before tail)

/-- The string that a null pointer is printed as. -/
def nullString : CString := ⟨literal "(null)", by decide, by decide⟩

section Takes

variable (ap rest : VaList)

/-- The conversions, each with the operand that it takes from the arguments. -/
inductive Takes : Char → Operand → Prop where
  | decimal {num : BitVec 64} (argument : getint ap 0 = .ok (num, rest)) :
    Takes 'd' (.number (signText num) .decimal num.toInt.natAbs (natAbs_lt num))
  | unsigned {num : BitVec 64} (argument : getuint ap 0 = .ok (num, rest)) :
    Takes 'u' (.number [] .decimal num.toNat num.isLt)
  | octal {num : BitVec 64} (argument : getint ap 0 = .ok (num, rest)) :
    Takes 'o' (.number (signText num) .octal num.toInt.natAbs (natAbs_lt num))
  | hex {num : BitVec 64} (argument : getuint ap 0 = .ok (num, rest)) :
    Takes 'x' (.number [] .hexadecimal num.toNat num.isLt)
  | pointer {v : BitVec 32} (argument : vaInt ap = .ok (v, rest)) :
    Takes 'p' (.number [ord '0', ord 'x'] .hexadecimal v.toNat (by omega))
  | string {str : CString} {tail : List UInt8}
      (argument : vaString ap = .ok (some (str.before tail), rest)) :
    Takes 's' (.string str tail)
  | null (argument : vaString ap = .ok (none, rest)) : Takes 's' (.string nullString [])

end Takes

/-- Each of these conversions prints its operand with the flags before it. -/
theorem Takes.convert {ap rest : VaList} {c : Char} {operand : Operand}
    (takes : Takes ap rest c operand) :
    ∃ k, conversion? c.toUInt8 = some k ∧
      ∀ flags : Flags, flags.lflag = 0 → ∀ out, operand.text flags = .ok out →
        convertText flags ap k = .ok (out, rest) := by
  -- the text of a number is what its conversion prints
  have number : ∀ {k lead base num bound}, PrintsNumber k 0 ap rest lead base num →
      ∀ flags : Flags, flags.lflag = 0 →
        ∀ out, (Operand.number lead base num bound).text flags = .ok out →
          convertText flags ap k = .ok (out, rest) := by
    intro k lead base num bound prints flags plain out text
    cases text
    exact prints flags plain
  cases takes with
  | decimal argument => exact ⟨.decimal, by decide, number (decimal_printsNumber argument)⟩
  | unsigned argument => exact ⟨.unsigned, by decide, number (unsigned_printsNumber argument)⟩
  | octal argument => exact ⟨.octal, by decide, number (octal_printsNumber argument)⟩
  | hex argument => exact ⟨.hex, by decide, number (hex_printsNumber argument)⟩
  | pointer argument => exact ⟨.pointer, by decide, number (pointer_printsNumber argument)⟩
  | string argument =>
    refine ⟨.string, by decide, ?_⟩
    intro flags _ out text
    rw [Operand.text] at text
    simp [convertText, argument, text]
  | null argument =>
    refine ⟨.string, by decide, ?_⟩
    intro flags _ out text
    rw [Operand.text] at text
    have object : literal "(null)" ++ [0] = nullString.before [] := rfl
    simp [convertText, argument, object, text]

/-! ### Fields of an operand -/

theorem Operand.text_exists (operand : Operand) (flags : Flags) :
    ∃ out, operand.text flags = .ok out := by
  cases operand with
  | number lead base num bound => exact ⟨_, rfl⟩
  | string str tail => exact stringText_terminated flags (by simp [CString.before])

/-- In a field of width zero there is nothing to pad. -/
theorem Operand.text_unpadded (operand : Operand) (padc precision : Int) :
    operand.text { padc, width := 0, precision } = operand.text { width := 0, precision } := by
  cases operand with
  | number lead base num bound =>
    have none := fun padc => numberText_unpadded base bound (by decide : (-1 : Int) ≤ 0)
      (Int.natCast_nonneg _) padc
    simp only [Operand.text, none]
  | string str tail =>
    simp only [Operand.text, stringText, gt_iff_lt, lt_irrefl, false_and, if_false]

/-- The operand leaves no room in a field of width `w`; a string does so only with blanks. -/
def Operand.Fills (w : Nat) : Operand → Prop
  | .number _ base num _ => w ≤ digitCount base.value num
  | .string str _ => str.bytes = List.replicate w ' '.toUInt8

theorem bodyText_whole (str : CString) : bodyText false (-1) str = str.bytes.map charInt := by
  rw [bodyText, charText_plain, limit, if_pos (by decide)]

theorem bodyText_none (str : CString) : bodyText false 0 str = [] := by
  rw [bodyText, limit, if_neg (by decide)]
  rfl

theorem blanks_iff (bytes : List UInt8) (w : Nat) :
    bytes.map charInt = List.replicate w (ord ' ') ↔ bytes = List.replicate w ' '.toUInt8 := by
  have blank : ∀ b : UInt8, charInt b = ord ' ' ↔ b = ' '.toUInt8 :=
    forall_byte (p := fun b => charInt b = ord ' ' ↔ b = ' '.toUInt8) (by decide +kernel)
  simp only [List.eq_replicate_iff, List.length_map, List.forall_mem_map, blank]

/-- A text behind zeros is blank only if it is all blanks and there are no zeros. -/
theorem leftpad_blanks_iff {body : List Int} {w n : Nat} (none : w = body.length → n = 0) :
    body.leftpad w (ord '0') ++ List.replicate n (ord ' ') = List.replicate w (ord ' ') ↔
      body = List.replicate w (ord ' ') := by
  constructor
  · intro same
    have length := congrArg List.length same
    rw [List.length_append, List.length_leftpad, List.length_replicate, List.length_replicate] at length
    have full : w - body.length = 0 := by
      by_contra room
      have zero : ord '0' ∈ List.replicate w (ord ' ') := by
        rw [← same, List.leftpad]
        simp [room]
      exact absurd (List.eq_of_mem_replicate zero) (by decide)
    have noBlanks : n = 0 := by omega
    rw [noBlanks, List.replicate_zero, List.append_nil, List.leftpad, full] at same
    exact same
  · rintro same
    have exact : w = body.length := by rw [same, List.length_replicate]
    rw [none exact, List.leftpad, ← exact, Nat.sub_self, List.replicate_zero, List.replicate_zero,
      List.nil_append, List.append_nil, ← same]

section Zeros

variable {w : Nat} (int : w < 2147483648)
include int

theorem numberText_zeros_iff (base : Base) {num : Nat} (bound : num < 2 ^ 64) :
    numberText base num w (ord '0') = numberText base num w (ord ' ') ↔
      w ≤ digitCount base.value num := by
  have amount : ((w : Int) - digitCount base.value num).toNat = w - digitCount base.value num := by
    omega
  have padded := numberText_eq base bound (by omega) (by omega : (w : Int) < 2147483648)
  rw [padded, padded, amount, List.append_cancel_right_eq]
  constructor
  · intro same
    by_contra wide
    have zero : ord '0' ∈ List.replicate (w - digitCount base.value num) (ord ' ') := by
      rw [← same, List.mem_replicate]
      exact ⟨by omega, rfl⟩
    exact absurd (List.eq_of_mem_replicate zero) (by decide)
  · intro narrow
    rw [Nat.sub_eq_zero_of_le narrow]
    rfl

/-- With a precision of zero nothing of a string is printed, without one all of it. -/
theorem stringText_zeros_iff (str : CString) (tail : List UInt8) :
    ∃ out out', stringText { padc := ord '0', width := w } (str.before tail) = .ok out ∧
      stringText { width := w, precision := 0 } (str.before tail) = .ok out' ∧
      (out = out' ↔ str.bytes = List.replicate w ' '.toUInt8) := by
  have nonneg : (0 : Int) ≤ w := Int.natCast_nonneg w
  have bound : (w : Int) < 2147483648 := by omega
  rcases Nat.eq_zero_or_pos w with rfl | positive
  · have whole := @stringText_right { padc := ord '0', width := (0 : Nat) } str tail nonneg bound
      (by simp)
    have none := @stringText_right { width := (0 : Nat), precision := 0 } str tail nonneg bound
      (by simp)
    rw [bodyText_whole] at whole
    rw [bodyText_none] at none
    refine ⟨_, _, whole, none, ?_⟩
    simp [List.rightpad]
  · have left : ∀ padc, padc ≠ ord '-' → (w : Int) > 0 ∧ padc ≠ ord '-' :=
      fun padc other => ⟨by omega, other⟩
    have whole := @stringText_left { padc := ord '0', width := w } str tail nonneg bound (by simp)
      (by simp) (left (ord '0') (by decide))
    have none := @stringText_left { width := w, precision := 0 } str tail nonneg bound (by simp)
      (by simp) (left (ord ' ') (by decide))
    rw [bodyText_whole] at whole
    rw [bodyText_none] at none
    refine ⟨_, _, whole, none, ?_⟩
    have short := str.fits
    have blank : ([] : List Int).leftpad w (ord ' ') ++
        List.replicate (leftover w ([] : List Int).length) (ord ' ') =
          List.replicate w (ord ' ') := by
      rw [(leftover_eq_zero_iff (by omega) bound (by decide)).mpr (by simp; omega), List.leftpad,
        List.append_nil, List.replicate_zero, List.append_nil]
      rfl
    have full : w = (str.bytes.map charInt).length →
        leftover w (str.bytes.map charInt).length = 0 := by
      intro same
      have length : w = str.bytes.length := by rw [same, List.length_map]
      rw [← same]
      exact (leftover_eq_zero_iff (by omega) bound (by omega)).mpr (by omega)
    rw [← blanks_iff, ← leftpad_blanks_iff full]
    exact iff_of_eq (congrArg _ blank)

/-- A precision of zero that is read as the flag `0`. -/
theorem Operand.text_zeros_iff (operand : Operand) :
    ∃ out out', operand.text { padc := ord '0', width := w } = .ok out ∧
      operand.text { width := w, precision := 0 } = .ok out' ∧
      (out = out' ↔ operand.Fills w) := by
  cases operand with
  | number lead base num bound =>
    refine ⟨_, _, rfl, rfl, ?_⟩
    rw [List.append_cancel_left_eq]
    exact numberText_zeros_iff int base bound
  | string str tail => exact stringText_zeros_iff int str tail

/-- Written or not, a precision does the same unless it is zero. -/
theorem Operand.text_written_iff (operand : Operand) {p : Nat} {padc : Int}
    (nonzero : 0 < p → padc = ord ' ' ∨ w = 0) (zero : p = 0 → padc = ord '0') :
    ∃ out out',
      operand.text { padc, width := w, precision := if 0 < p then p else -1 } = .ok out ∧
      operand.text { width := w, precision := p } = .ok out' ∧
      (out = out' ↔ 0 < p ∨ operand.Fills w) := by
  rcases Nat.eq_zero_or_pos p with rfl | positive
  · obtain rfl := zero rfl
    obtain ⟨out, out', written, starred, same⟩ := operand.text_zeros_iff int
    exact ⟨out, out', written, starred, by simpa using same⟩
  · obtain ⟨out, text⟩ := operand.text_exists { width := w, precision := p }
    refine ⟨out, out, ?_, text, by simp [positive]⟩
    rw [if_pos positive, ← text]
    rcases nonzero positive with rfl | rfl
    · rfl
    · exact operand.text_unpadded padc p

end Zeros

/-! ### The formats -/

section Formats

variable {w p : Nat} (ap : VaList)

def writtenFormat (w p : Nat) (c : Char) : List UInt8 :=
  escapeFormat (decimalBytes w ++ '.'.toUInt8 :: decimalBytes p) c

/-- The same with a precision only. -/
def writtenPrecision (p : Nat) (c : Char) : List UInt8 :=
  escapeFormat ('.'.toUInt8 :: decimalBytes p) c

def starPrecision (c : Char) : List UInt8 := escapeFormat (literal ".*") c

theorem toInt_ofNat {n : Nat} (int : n < 2147483648) : (BitVec.ofNat 32 n).toInt = n := by
  have same : int32 n = n := int32_of_range (by omega) (by omega)
  rwa [BitVec.toInt_ofNat']

/-- A precision, after a width or the width of zero that the `.` sets. -/
theorem applyFlags_precision (int : p < 2147483648) {flags : Flags} (set : 0 ≤ flags.width) :
    applyFlags (decimalBytes p) flags ap = .ok ({ flags with
      padc := if 0 < p then flags.padc else ord '0'
      precision := if 0 < p then p else flags.precision }, ap) := by
  rw [← List.append_nil (decimalBytes p)]
  rcases Nat.eq_zero_or_pos p with rfl | positive
  · exact (applyFlags_decimal_zero [] flags ap).trans (applyFlags_nil _ ap)
  · have value : int32 p = p := int32_of_range (by omega) (by omega)
    rw [applyFlags_decimal positive [] rfl, Flags.processPrecision, if_neg (not_lt.mpr set),
      applyFlags_nil, value, if_pos positive, if_pos positive]

theorem applyFlags_written (width : w < 2147483648) (int : p < 2147483648) :
    applyFlags (decimalBytes w ++ '.'.toUInt8 :: decimalBytes p) {} ap = .ok ({
      padc := if 0 < w ∧ 0 < p then ord ' ' else ord '0'
      width := w
      precision := if 0 < p then p else -1 }, ap) := by
  rcases Nat.eq_zero_or_pos w with rfl | positive
  · rw [applyFlags_decimal_zero, applyFlags_dot, applyFlags_precision ap int (by simp [Flags.dot])]
    simp [Flags.dot]
  · have value : int32 w = w := int32_of_range (by omega) (by omega)
    rw [applyFlags_decimal positive _ (List.takeWhile_cons_of_neg (by decide)),
      Flags.processPrecision, if_pos (by simp), value,
      applyFlags_dot, Flags.dot, if_neg (by simp), applyFlags_precision ap int (by simp)]
    simp [positive]

theorem applyFlags_starred (width : w < 2147483648) (int : p < 2147483648) :
    applyFlags (literal "*.*") {} (.word (.ofNat 32 w) :: .word (.ofNat 32 p) :: ap) =
      .ok ({ width := w, precision := p }, ap) := by
  rw [applyFlags_stars (by decide) (by rw [toInt_ofNat width]; omega), toInt_ofNat width,
    toInt_ofNat int]

theorem applyFlags_starPrecision (int : p < 2147483648) :
    applyFlags (literal ".*") {} (.word (.ofNat 32 p) :: ap) =
      .ok ({ width := (0 : Nat), precision := p }, ap) := by
  have bytes : literal ".*" = ['.'.toUInt8, '*'.toUInt8] := by decide
  rw [bytes, applyFlags_dot, applyFlags_star, applyFlags_nil, toInt_ofNat int]
  rfl

variable {ap} {rest : VaList} {c : Char} {operand : Operand} (takes : Takes ap rest c operand)
include takes

/-- Two escapes that come to flags with the same width, one of them with a written precision. -/
theorem emitted_written_iff {s t : List UInt8} {args : VaList} {padc : Int}
    (width : w < 2147483648) (flagsS : ∀ b ∈ s, isFlag b = true) (flagsT : ∀ b ∈ t, isFlag b = true)
    (written : applyFlags s {} ap =
      .ok ({ padc, width := w, precision := if 0 < p then p else -1 }, ap))
    (starred : applyFlags t {} args = .ok ({ width := w, precision := p }, ap))
    (nonzero : 0 < p → padc = ord ' ' ∨ w = 0) (zero : p = 0 → padc = ord '0') :
    ∃ out out', emitted (escapeFormat s c) ap = .ok (out, rest) ∧
      emitted (escapeFormat t c) args = .ok (out', rest) ∧
      (out = out' ↔ 0 < p ∨ operand.Fills w) := by
  obtain ⟨k, ended, prints⟩ := takes.convert
  obtain ⟨out, out', text, text', same⟩ := operand.text_written_iff width nonzero zero
  refine ⟨out, out', ?_, ?_, same⟩
  · rw [emitted_escape flagsS ended written]
    exact prints _ rfl out text
  · rw [emitted_escape flagsT ended starred]
    exact prints _ rfl out' text'

/-- A width and a precision in the format are the same as those numbers through `*` exactly if
the precision is not zero or the operand leaves no room for zeros. -/
theorem written_iff_star (width : w < 2147483648) (int : p < 2147483648) :
    (∃ out out', emitted (writtenFormat w p c) ap = .ok (out, rest) ∧
      emitted (starFormat [] c) (.word (.ofNat 32 w) :: .word (.ofNat 32 p) :: ap) =
        .ok (out', rest) ∧
      (out = out' ↔ 0 < p ∨ operand.Fills w)) ∧
    ∃ out out', emitted (writtenPrecision p c) ap = .ok (out, rest) ∧
      emitted (starPrecision c) (.word (.ofNat 32 p) :: ap) = .ok (out', rest) ∧
      (out = out' ↔ 0 < p ∨ operand.Fills 0) := by
  have precision : ∀ b ∈ '.'.toUInt8 :: decimalBytes p, isFlag b = true := by
    rw [List.forall_mem_cons]
    exact ⟨by decide, isFlag_decimalBytes⟩
  constructor
  · have all : ∀ b ∈ decimalBytes w ++ '.'.toUInt8 :: decimalBytes p, isFlag b = true := by
      rw [List.forall_mem_append]
      exact ⟨isFlag_decimalBytes, precision⟩
    refine emitted_written_iff takes width all isFlag_stars (applyFlags_written ap width int)
      (applyFlags_starred ap width int) ?_ ?_
    · intro positive
      rcases Nat.eq_zero_or_pos w with zero | wide
      · exact .inr zero
      · exact .inl (if_pos ⟨wide, positive⟩)
    · rintro rfl
      simp
  · have dotted : applyFlags ('.'.toUInt8 :: decimalBytes p) {} ap = .ok ({
        padc := if 0 < p then ord ' ' else ord '0'
        width := (0 : Nat)
        precision := if 0 < p then p else -1 }, ap) := by
      rw [applyFlags_dot, applyFlags_precision ap int (by simp [Flags.dot])]
      simp [Flags.dot]
    have star : ∀ b ∈ literal ".*", isFlag b = true := by decide +kernel
    refine emitted_written_iff takes (by decide) precision star dotted
      (applyFlags_starPrecision ap int) (fun _ => .inr rfl) ?_
    rintro rfl
    rfl

end Formats

theorem written_iff_star_four :
    (∃ out out', emitted (writtenFormat 4 2 'd') [.word 42] = .ok (out, []) ∧
      emitted (starFormat [] 'd') [.word 4, .word 2, .word 42] = .ok (out', []) ∧
      (out = out' ↔ 0 < 2 ∨ (Operand.number (signText 42) .decimal
        (42 : BitVec 64).toInt.natAbs (natAbs_lt 42)).Fills 4)) ∧
    ∃ out out', emitted (writtenPrecision 2 'd') [.word 42] = .ok (out, []) ∧
      emitted (starPrecision 'd') [.word 2, .word 42] = .ok (out', []) ∧
      (out = out' ↔ 0 < 2 ∨ (Operand.number (signText 42) .decimal
        (42 : BitVec 64).toInt.natAbs (natAbs_lt 42)).Fills 0) :=
  written_iff_star (.decimal rfl) (by decide) (by decide)

/-- `%.0s` prints the whole string, `%.*s` with a zero none of it. -/
theorem written_ne_star_zero :
    emitted (writtenPrecision 0 's') [.ptr 1 [97, 0]] = .ok ([97], []) ∧
      emitted (starPrecision 's') [.word 0, .ptr 1 [97, 0]] = .ok ([], []) ∧
      ([97] : List Int) ≠ [] :=
  ⟨by decide +kernel, by decide +kernel, by decide⟩

end Jos
