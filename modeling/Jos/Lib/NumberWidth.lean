import Jos.Lib.NumberText
import Jos.Lib.EscapeFormats

/-!
# Numbers in a field

`printnum` pads the digits on the left, with whatever character it is given. It sees neither
the sign nor the `0x` that `vprintfmt` has printed before, and `-` is a pad character to it.
-/
namespace Jos

open Library

/-! ### The padding of a field -/

/-- What is printed before `k` digits in a field of width `w`, which is an `int`. -/
def padding (w k : Nat) : Nat := (int32 ((w : Int) - k)).toNat

theorem padding_of_le {w k : Nat} (short : k ≤ 64) (fits : w ≤ k) : padding w k = 0 := by
  rw [padding, int32_of_range (by omega) (by omega)]
  omega

/-- The padding makes up the width exactly if nothing stands before the digits. -/
theorem padding_exact_iff {w k lead : Nat} (short : k ≤ 64) (few : lead ≤ 2) :
    lead + (padding w k + k) = max w (lead + k) ↔
      w ≤ k ∨ lead = 0 ∧ w < 2147483648 + k := by
  by_cases fits : w ≤ k
  · rw [padding_of_le short fits]
    omega
  · obtain ⟨turns, value, low, high⟩ := int32_wraps ((w : Int) - k)
    unfold padding
    omega

section Field

variable {s : List UInt8} (choice : IsChoice s) (w longs : Nat)

/-- An escape with flags and a width, `longs` times `l`, and a conversion. -/
def fieldFormat (s : List UInt8) (w longs : Nat) (c : Char) : List UInt8 :=
  escapeFormat (s ++ (decimalBytes w ++ longBytes longs)) c

/-- The same conversion without them. -/
def bareFormat (longs : Nat) (c : Char) : List UInt8 := escapeFormat (longBytes longs) c

include choice in
/-- With these flags a number is padded by its field's padding. A width of zero is the flag
`0`, and pads nothing. -/
theorem applyFlags_field (ap : VaList) :
    ∃ flags, applyFlags (s ++ (decimalBytes w ++ longBytes longs)) {} ap = .ok (flags, ap) ∧
      flags.lflag = longs ∧
      ∀ (base : Base) (num : Nat), num < 2 ^ 64 →
        numberText base num flags.width flags.padc =
          List.replicate (padding w (digitCount base.value num)) (padChar (ord ' ') s) ++
            digitsText base num := by
  have noDigit : (longBytes longs).takeWhile isDigit = [] := by
    cases longs <;> rfl
  rw [applyFlags_choice choice]
  rcases Nat.eq_zero_or_pos w with rfl | positive
  · rw [applyFlags_decimal_zero, applyFlags_longs]
    refine ⟨_, rfl, Nat.zero_add longs, ?_⟩
    intro base num bound
    rw [padding_of_le (digitCount_le base bound) (Nat.zero_le _)]
    exact numberText_unpadded base bound (Int.le_refl _) (by omega) _
  · rw [applyFlags_decimal positive _ noDigit, applyFlags_longs, Flags.processPrecision,
      if_pos (by simp)]
    refine ⟨_, rfl, Nat.zero_add longs, ?_⟩
    intro base num _
    rw [numberText, length_numeral base.two_le, digitsText, padding]
    simp only [int32_int32_sub]

end Field

/-! ### A conversion with and without a field -/

section Conversions

variable {longs : Nat} {ap rest : VaList} {k : Conversion} {lead : List Int} {base : Base}
  {num : Nat} {c : Char}

/-- Without flags and width there is no padding. -/
theorem emitted_bare (prints : PrintsNumber k longs ap rest lead base num)
    (ended : conversion? c.toUInt8 = some k) (bound : num < 2 ^ 64) :
    emitted (bareFormat longs c) ap = .ok (lead ++ digitsText base num, rest) := by
  rw [bareFormat, emitted_escape isFlag_longBytes ended (applyFlags_longs longs {} ap),
    prints _ (Nat.zero_add longs), numberText_unpadded base bound (Int.le_refl _) (by simp)]

theorem emitted_field (prints : PrintsNumber k longs ap rest lead base num)
    (ended : conversion? c.toUInt8 = some k) (bound : num < 2 ^ 64) {s : List UInt8}
    (choice : IsChoice s) (w : Nat) :
    emitted (fieldFormat s w longs c) ap = .ok (lead ++
      (List.replicate (padding w (digitCount base.value num)) (padChar (ord ' ') s) ++
        digitsText base num), rest) := by
  have all : ∀ b ∈ s ++ (decimalBytes w ++ longBytes longs), isFlag b = true := by
    simp only [List.forall_mem_append]
    exact ⟨choice.isFlag, isFlag_decimalBytes, isFlag_longBytes⟩
  obtain ⟨flags, applied, lflag, text⟩ := applyFlags_field choice w longs ap
  rw [fieldFormat, emitted_escape all ended applied, prints flags lflag, text base num bound]

end Conversions

/-! ### Signs and prefixes -/

/-- The text `plain` in a field of width `w`. -/
structure FieldWidth (w : Nat) (zero : Bool) (plain out : List Int) : Prop where
  length : out.length = max w plain.length
  spaces : zero = false → out = plain.leftpad w (ord ' ')

def zeroFlag (zero : Bool) : List UInt8 := if zero then ['0'.toUInt8] else []

theorem isChoice_zeroFlag (zero : Bool) : IsChoice (zeroFlag zero) := by
  intro b member
  cases zero with
  | false => cases member
  | true => exact .inr (.inl (List.mem_singleton.mp member))

/-- Padding that comes after a sign or a prefix is too much as soon as there is any. -/
theorem fieldWidth_padding_iff {lead digits : List Int} (w : Nat) (zero : Bool)
    (short : digits.length ≤ 64) (few : lead.length ≤ 2) :
    FieldWidth w zero (lead ++ digits) (lead ++
        (List.replicate (padding w digits.length) (padChar (ord ' ') (zeroFlag zero)) ++ digits)) ↔
      w ≤ digits.length ∨ lead = [] ∧ w < 2147483648 + digits.length := by
  rw [← List.length_eq_zero_iff, ← padding_exact_iff short few]
  constructor
  · rintro ⟨length, _⟩
    simpa only [List.length_append, List.length_replicate] using length
  · intro exact
    refine ⟨by simpa only [List.length_append, List.length_replicate] using exact, ?_⟩
    rintro rfl
    rcases (padding_exact_iff short few).mp exact with fits | ⟨none, int⟩
    · -- no padding at all
      rw [padding_of_le short fits, List.leftpad, List.length_append,
        Nat.sub_eq_zero_of_le (by omega)]
      rfl
    · obtain rfl := List.length_eq_zero_iff.mp none
      have amount : padding w digits.length = w - digits.length := by
        rw [List.length_nil] at exact
        omega
      rw [amount]
      rfl

/-- What a signed or a prefixed conversion prints has its field width exactly if it fits into
the digits, or if there is no sign and no prefix and the width is not too large for an `int`. -/
theorem fieldWidth_iff (w : Nat) (zero : Bool) (longs : Nat) :
    (∀ ap num rest, getint ap longs = .ok (num, rest) → ∃ plain out,
      emitted (bareFormat longs 'd') ap = .ok (plain, rest) ∧
      emitted (fieldFormat (zeroFlag zero) w longs 'd') ap = .ok (out, rest) ∧
      (FieldWidth w zero plain out ↔ w ≤ digitCount 10 num.toInt.natAbs ∨
        0 ≤ num.toInt ∧ w < 2147483648 + digitCount 10 num.toInt.natAbs)) ∧
    (∀ ap v rest, vaInt ap = .ok (v, rest) → ∃ plain out,
      emitted (bareFormat longs 'p') ap = .ok (plain, rest) ∧
      emitted (fieldFormat (zeroFlag zero) w longs 'p') ap = .ok (out, rest) ∧
      (FieldWidth w zero plain out ↔ w ≤ digitCount 16 v.toNat)) := by
  have choice := isChoice_zeroFlag zero
  constructor
  · intro ap num rest argument
    have prints := decimal_printsNumber argument
    have bound := natAbs_lt num
    have short := digitCount_le .decimal bound
    have few : (signText num).length ≤ 2 := by
      unfold signText
      split <;> decide
    have positive : signText num = [] ↔ 0 ≤ num.toInt := by
      unfold signText
      split <;> simp <;> omega
    rw [← length_digitsText] at short
    have exact := fieldWidth_padding_iff w zero short few
    rw [positive, length_digitsText] at exact
    exact ⟨_, _, emitted_bare prints (by decide) bound, emitted_field prints (by decide) bound choice w,
      exact⟩
  · intro ap v rest argument
    have prints := @pointer_printsNumber longs ap rest v argument
    have bound : v.toNat < 2 ^ 64 := by omega
    have short := digitCount_le .hexadecimal bound
    rw [← length_digitsText] at short
    have exact := fieldWidth_padding_iff w zero short (Nat.le_refl [ord '0', ord 'x'].length)
    rw [length_digitsText, or_iff_left (by simp)] at exact
    exact ⟨_, _, emitted_bare prints (by decide) bound, emitted_field prints (by decide) bound choice w,
      exact⟩

theorem fieldWidth_iff_five :
    (∃ plain out,
      emitted (bareFormat 0 'd') [.word 42] = .ok (plain, []) ∧
      emitted (fieldFormat (zeroFlag true) 5 0 'd') [.word 42] = .ok (out, []) ∧
      (FieldWidth 5 true plain out ↔ 5 ≤ digitCount 10 (42 : BitVec 64).toInt.natAbs ∨
        0 ≤ (42 : BitVec 64).toInt ∧
          5 < 2147483648 + digitCount 10 (42 : BitVec 64).toInt.natAbs)) ∧
    ∃ plain out,
      emitted (bareFormat 0 'p') [.word 42] = .ok (plain, []) ∧
      emitted (fieldFormat (zeroFlag true) 5 0 'p') [.word 42] = .ok (out, []) ∧
      (FieldWidth 5 true plain out ↔ 5 ≤ digitCount 16 (42 : BitVec 32).toNat) := by
  obtain ⟨decimal, pointer⟩ := fieldWidth_iff 5 true 0
  exact ⟨decimal [.word 42] 42 [] rfl, pointer [.word 42] 42 [] rfl⟩

/-- `%5d` of -42 is six characters, and its sign is three blanks before the digits. -/
theorem fieldWidth_negative :
    emitted (bareFormat 0 'd') [.word (-42)] = .ok ([45, 52, 50], []) ∧
      emitted (fieldFormat (zeroFlag false) 5 0 'd') [.word (-42)] =
        .ok ([45, 32, 32, 32, 52, 50], []) ∧
      ¬FieldWidth 5 false [45, 52, 50] [45, 32, 32, 32, 52, 50] := by
  refine ⟨by decide +kernel, by decide +kernel, ?_⟩
  rintro ⟨length, _⟩
  exact absurd length (by decide)

/-! ### The flag `-` -/

/-- The conversions of numbers with a length modifier: the base, and whether the argument is a
signed one. -/
def numberConversions : List (Char × Base × Bool) :=
  [('d', .decimal, true), ('u', .decimal, false), ('o', .octal, false), ('x', .hexadecimal, false)]

def numberArgument (signed : Bool) (ap : VaList) (longs : Nat) : Exec (BitVec 64 × VaList) :=
  if signed then getint ap longs else getuint ap longs

/-- Bit 31 of an argument, or bit 63 of one with `ll`. -/
def topBit (longs : Nat) (num : BitVec 64) : Bool := num.getLsbD (if longs < 2 then 31 else 63)

theorem toInt_by_msb {n : Nat} (v : BitVec n) :
    if v.msb then v.toInt < 0 else v.toInt = v.toNat := by
  split
  · next set =>
    rw [BitVec.msb_eq_toInt, decide_eq_true_eq] at set
    exact set
  · next clear => exact BitVec.toInt_eq_toNat_of_msb (Bool.eq_false_iff.mpr clear)

theorem topBit_dword {longs : Nat} (long : 2 ≤ longs) (w : BitVec 64) :
    topBit longs w = w.msb := by
  rw [topBit, if_neg (by omega), BitVec.msb_eq_getLsbD_last]

/-- The zeros of the extension leave the top bit of the `int` in bit 31. -/
theorem topBit_word {longs : Nat} (short : longs < 2) (v : BitVec 32) :
    topBit longs (v.zeroExtend 64) = v.msb := by
  rw [topBit, if_pos short, BitVec.msb_eq_getLsbD_last, BitVec.getLsbD_setWidth]
  rfl

/-- An argument taken as a signed one is negative exactly if its top bit is set. -/
theorem getint_of_getuint {longs : Nat} {ap rest : VaList} {num : BitVec 64}
    (argument : getuint ap longs = .ok (num, rest)) :
    ∃ signed, getint ap longs = .ok (signed, rest) ∧
      if topBit longs num then signed.toInt < 0 else signed.toInt = num.toNat := by
  by_cases long : longs ≥ 2
  · rw [getuint, if_pos long] at argument
    rw [getint, if_pos long, topBit_dword long]
    exact ⟨num, argument, toInt_by_msb num⟩
  · rw [getuint, if_neg long] at argument
    rw [getint, if_neg long]
    cases taken : vaInt ap with
    | error e =>
      rw [taken] at argument
      cases argument
    | ok r =>
      rw [taken] at argument
      cases argument
      have zero : (r.1.zeroExtend 64).toNat = r.1.toNat := BitVec.toNat_setWidth_of_le (by decide)
      refine ⟨r.1.signExtend 64, rfl, ?_⟩
      rw [topBit_word (by omega), zero, BitVec.toInt_signExtend_of_le (by decide)]
      exact toInt_by_msb r.1

/-- What a conversion prints before the digits: a sign, if `%o` finds the top bit set. -/
theorem numberConversions_print {c : Char} {base : Base} {signed : Bool}
    (member : (c, base, signed) ∈ numberConversions) {longs : Nat} {ap rest : VaList}
    {num : BitVec 64} (argument : numberArgument signed ap longs = .ok (num, rest))
    (nonneg : signed = true → 0 ≤ num.toInt) :
    ∃ k lead value, conversion? c.toUInt8 = some k ∧ value < 2 ^ 64 ∧
      PrintsNumber k longs ap rest lead base value ∧
      if c = 'o' ∧ topBit longs num then lead = [ord '-'] else lead = [] ∧ value = num.toNat := by
  simp only [numberConversions, List.mem_cons, Prod.mk.injEq, List.not_mem_nil, or_false] at member
  rcases member with ⟨rfl, rfl, rfl⟩ | ⟨rfl, rfl, rfl⟩ | ⟨rfl, rfl, rfl⟩ | ⟨rfl, rfl, rfl⟩
  · have positive := nonneg rfl
    have bits := BitVec.toInt_eq_toNat_cond num
    have bound := num.isLt
    refine ⟨.decimal, _, _, by decide, natAbs_lt num, decimal_printsNumber argument, ?_⟩
    rw [if_neg (by simp), signText, if_neg (by omega)]
    refine ⟨rfl, ?_⟩
    split at bits <;> omega
  · exact ⟨.unsigned, _, _, by decide, num.isLt, unsigned_printsNumber argument, by simp⟩
  · obtain ⟨value, taken, sign⟩ := getint_of_getuint argument
    refine ⟨.octal, _, _, by decide, natAbs_lt value, octal_printsNumber taken, ?_⟩
    simp only [true_and]
    split at sign
    · next set => rw [if_pos set, signText, if_pos sign]
    · next clear =>
      rw [if_neg clear, signText, if_neg (by omega)]
      exact ⟨rfl, by omega⟩
  · exact ⟨.hex, _, _, by decide, num.isLt, hex_printsNumber argument, by simp⟩

/-- No digit is printed as the sign. -/
theorem digitCode_ne_minus (d : Nat) : digitCode d ≠ ord '-' := by
  have minus : ord '-' = 45 := rfl
  unfold digitCode
  split <;> omega

/-- A padded numeral begins with a digit. -/
theorem rightpad_ne_minus (base : Base) (num w : Nat) (text : List Int) :
    ord '-' :: text ≠ (digitsText base num).rightpad w (ord ' ') := by
  obtain ⟨d, ds, digits⟩ := List.exists_cons_of_ne_nil (numeral_ne_nil base.value num)
  rw [List.rightpad, digitsText, digits, List.map_cons, List.cons_append, ne_eq, List.cons.injEq]
  exact fun same => digitCode_ne_minus d same.1.symm

/-- A text that ends in a digit is padded on the right only if there is no padding. -/
theorem rightpad_digits_iff (base : Base) {num w n : Nat}
    (fits : w ≤ digitCount base.value num → n = 0) :
    List.replicate n (ord '-') ++ digitsText base num =
        (digitsText base num).rightpad w (ord ' ') ↔ w ≤ digitCount base.value num := by
  rw [List.rightpad, length_digitsText]
  constructor
  · intro same
    by_contra wide
    -- the last character would be a digit and a blank
    have blank : (digitsText base num ++
        List.replicate (w - digitCount base.value num) (ord ' ')).getLast? = some (ord ' ') := by
      rw [List.getLast?_append, List.getLast?_replicate, if_neg (by omega)]
      rfl
    have nonempty : digitsText base num ≠ [] := by
      rw [digitsText, ne_eq, List.map_eq_nil_iff]
      exact numeral_ne_nil base.value num
    rw [← same, List.getLast?_append_of_ne_nil _ nonempty] at blank
    obtain ⟨d, _, code⟩ := List.mem_map.mp (List.mem_of_getLast? blank)
    unfold digitCode ord at code
    split at code <;> simp at code <;> omega
  · intro narrow
    rw [fits narrow, Nat.sub_eq_zero_of_le narrow, List.replicate_zero, List.replicate_zero,
      List.nil_append, List.append_nil]

/-- The flag `-` pads a number on the right exactly if there is nothing to pad, and `%o` does
not take the number for a negative one. -/
theorem rightpad_field_iff (w longs : Nat) {c : Char} {base : Base} {signed : Bool}
    (member : (c, base, signed) ∈ numberConversions) {ap rest : VaList} {num : BitVec 64}
    (argument : numberArgument signed ap longs = .ok (num, rest))
    (nonneg : signed = true → 0 ≤ num.toInt) :
    ∃ out, emitted (fieldFormat ['-'.toUInt8] w longs c) ap = .ok (out, rest) ∧
      ((c = 'o' → topBit longs num = false) →
        emitted (bareFormat longs c) ap = .ok (digitsText base num.toNat, rest)) ∧
      (out = (digitsText base num.toNat).rightpad w (ord ' ') ↔
        w ≤ digitCount base.value num.toNat ∧ (c = 'o' → topBit longs num = false)) := by
  obtain ⟨k, lead, value, ended, bound, prints, sign⟩ :=
    numberConversions_print member argument nonneg
  have choice : IsChoice ['-'.toUInt8] := fun b inside => .inl (List.mem_singleton.mp inside)
  refine ⟨_, emitted_field prints ended bound choice w, ?_⟩
  split at sign
  · next set =>
    obtain rfl := sign
    have marked : ¬(c = 'o' → topBit longs num = false) := by
      rw [set.2]
      simp [set.1]
    exact ⟨fun clear => absurd clear marked,
      fun same => absurd same (rightpad_ne_minus base _ _ _),
      fun narrow => absurd narrow.2 marked⟩
  · next clear =>
    obtain ⟨rfl, rfl⟩ := sign
    have unmarked : c = 'o' → topBit longs num = false := by simpa using clear
    refine ⟨fun _ => emitted_bare prints ended bound, ?_⟩
    rw [and_iff_left unmarked]
    exact rightpad_digits_iff base (padding_of_le (digitCount_le base bound))

theorem rightpad_field_iff_two :
    ∃ out, emitted (fieldFormat ['-'.toUInt8] 2 2 'o') [.dword 0x2a] = .ok (out, []) ∧
      (('o' = 'o' → topBit 2 0x2a = false) → emitted (bareFormat 2 'o') [.dword 0x2a] =
        .ok (digitsText .octal (0x2a : BitVec 64).toNat, [])) ∧
      (out = (digitsText .octal (0x2a : BitVec 64).toNat).rightpad 2 (ord ' ') ↔
        2 ≤ digitCount 8 (0x2a : BitVec 64).toNat ∧ ('o' = 'o' → topBit 2 0x2a = false)) :=
  @rightpad_field_iff 2 2 'o' .octal false (by simp [numberConversions]) [.dword 0x2a] []
    0x2a rfl (by simp)

/-- `%-5d` of 42 is padded with three `-` on the left. -/
theorem rightpad_field_five :
    emitted (bareFormat 0 'd') [.word 42] = .ok ([52, 50], []) ∧
      emitted (fieldFormat ['-'.toUInt8] 5 0 'd') [.word 42] = .ok ([45, 45, 45, 52, 50], []) ∧
      [45, 45, 45, 52, 50] ≠ [52, 50].rightpad 5 (ord ' ') :=
  ⟨by decide +kernel, by decide +kernel, by decide⟩

-- and `%-5o` of 0xffffffff is a sign, four of the flags and the digit of 1
example : emitted (fieldFormat ['-'.toUInt8] 5 0 'o') [.word 0xffffffff] =
    .ok ([45, 45, 45, 45, 45, 49], []) := by decide +kernel

end Jos
