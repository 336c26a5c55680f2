import Jos.Lib.Snprintf
import Jos.Lib.NumberText
import Jos.Lib.EscapeFormats

/-!
# strtol undoes snprintf

A number that is printed with no width, or with a width and zero padding, is a list of
digits; `strtol` reads it back by Horner's rule. Both sides compute modulo 2^32, which the
sign of the number survives.
-/
namespace Jos

open Library

/-! ### The formats -/

/-- `%c`, or `%0wc` for a width `w`. -/
def numberFormat (width : Option Nat) (c : Char) : List UInt8 :=
  match width with
  | none => ['%'.toUInt8, c.toUInt8]
  | some w => '%'.toUInt8 :: '0'.toUInt8 :: ((numeral 10 w).map digitByte ++ [c.toUInt8])

/-- The conversions, each with the bases in which `strtol` can read what it prints. -/
def radixPairs : List (Char × Int) := [('d', 10), ('x', 16), ('o', 8), ('p', 0), ('p', 16)]

/-! ### Text that consists of digits -/

theorem digitByte_spec {d : Nat} (small : d < 16) :
    digitValue (charInt (digitByte d)) = some (d : Int) ∧
      charInt (digitByte d) ≠ ord ' ' ∧ charInt (digitByte d) ≠ ord '\t' ∧
      charInt (digitByte d) ≠ ord '+' ∧ charInt (digitByte d) ≠ ord '-' ∧
      charInt (digitByte d) ≠ ord 'x' := by
  interval_cases d <;> decide

/-- Horner's rule in a `long` of 32 bits. -/
theorem strtolDigits_digits {base : Nat} (small : base ≤ 16) (ds : List Nat)
    (digits : ∀ d ∈ ds, d < base) (tail : List UInt8) (val : Nat) :
    strtolDigits base (ds.map digitByte ++ 0 :: tail) (int32 val) =
      .ok (int32 (ds.foldl (fun v d => v * base + d) val : Nat), 0 :: tail) := by
  induction ds generalizing val with
  | nil => rfl
  | cons d ds ih =>
    have below : d < base := digits d (by simp)
    have rest := ih (fun x member => digits x (by simp [member])) (val * base + d)
    have value := (digitByte_spec (by omega : d < 16)).1
    -- wrapping after every digit is wrapping once
    have step : int32 (int32 val * base + d) = int32 (val * base + d : Nat) := by
      rw [← int32_int32_add, int32_int32_mul, int32_int32_add]
      push_cast
      rfl
    rw [List.map_cons, List.cons_append, strtolDigits, value]
    dsimp only
    rw [if_neg (by omega), step, rest, List.foldl_cons]

/-- What follows a digit of such a text is no `x`. -/
theorem hexPrefix_digits (ds : List Nat) (nonempty : ds ≠ []) (digits : ∀ d ∈ ds, d < 16)
    (tail : List UInt8) : hexPrefix (ds.map digitByte ++ 0 :: tail) = .ok false := by
  obtain ⟨d, ds, rfl⟩ := List.exists_cons_of_ne_nil nonempty
  rcases ds with _ | ⟨e, ds⟩
  · simp [hexPrefix, readAt, show ¬charInt 0 = ord 'x' by decide]
  · have second := (digitByte_spec (digits e (by simp))).2.2.2.2.2
    simp [hexPrefix, readAt, second]

theorem strtolBase_given {base : Int} (nonzero : base ≠ 0) {p : List UInt8}
    (noPrefix : hexPrefix p = .ok false) {c : UInt8} (first : readAt p 0 = .ok c) :
    strtolBase base p = .ok (base, p) := by
  unfold strtolBase
  by_cases hex : base = 16
  · simp [hex, noPrefix, first]
  · simp [nonzero, hex, first]

theorem skipBlanks_cons {b : UInt8} (space : charInt b ≠ ord ' ') (tab : charInt b ≠ ord '\t')
    (s : List UInt8) : skipBlanks (b :: s) = .ok (b :: s) := by
  simp [skipBlanks, space, tab]

section Digits

variable {base : Nat} (ds : List Nat) (tail : List UInt8)

theorem strtolDigits_horner (small : base ≤ 16) (digits : ∀ d ∈ ds, d < base) :
    strtolDigits base (ds.map digitByte ++ 0 :: tail) 0 =
      .ok (int32 (horner base ds : Nat), 0 :: tail) :=
  strtolDigits_digits small ds digits tail 0

theorem strtolBase_digits (two : 2 ≤ base) (small : base ≤ 16) (nonempty : ds ≠ [])
    (digits : ∀ d ∈ ds, d < base) :
    strtolBase base (ds.map digitByte ++ 0 :: tail) =
      .ok ((base : Int), ds.map digitByte ++ 0 :: tail) := by
  have noPrefix := hexPrefix_digits ds nonempty
    (fun d member => Nat.lt_of_lt_of_le (digits d member) small) tail
  obtain ⟨d, ds, rfl⟩ := List.exists_cons_of_ne_nil nonempty
  exact strtolBase_given (by omega : (base : Int) ≠ 0) noPrefix (readAt_head _ _)

/-- `strtol` on a list of digits. -/
theorem strtol_digits (two : 2 ≤ base) (small : base ≤ 16) (nonempty : ds ≠ [])
    (digits : ∀ d ∈ ds, d < base) :
    strtol (ds.map digitByte ++ 0 :: tail) base =
      .ok (int32 (horner base ds : Nat), ds.length) := by
  have based := strtolBase_digits ds tail two small nonempty digits
  have read := strtolDigits_horner ds tail small digits
  obtain ⟨d, ds, rfl⟩ := List.exists_cons_of_ne_nil nonempty
  have below : d < base := digits d (by simp)
  -- the first byte is neither blank nor sign
  obtain ⟨_, space, tab, plus, minus, _⟩ := digitByte_spec (by omega : d < 16)
  rw [List.map_cons, List.cons_append] at based read ⊢
  simp only [strtol, skipBlanks_cons space tab, Exec.ok_bind, readAt_head, plus, minus, or_self,
    if_false, based, read]
  simp
  omega

/-- `strtol` on a minus sign and a list of digits. -/
theorem strtol_negative (two : 2 ≤ base) (small : base ≤ 16) (nonempty : ds ≠ [])
    (digits : ∀ d ∈ ds, d < base) :
    strtol ('-'.toUInt8 :: (ds.map digitByte ++ 0 :: tail)) base =
      .ok (int32 (-(horner base ds : Nat)), ds.length + 1) := by
  have based := strtolBase_digits ds tail two small nonempty digits
  have read := strtolDigits_horner ds tail small digits
  have minus : charInt '-'.toUInt8 = ord '-' := by decide
  have blank : charInt '-'.toUInt8 ≠ ord ' ' ∧ charInt '-'.toUInt8 ≠ ord '\t' := by decide
  simp only [strtol, skipBlanks_cons blank.1 blank.2, Exec.ok_bind, readAt_head, minus, or_true,
    if_true, List.drop_one, List.tail_cons, based, read, int32_neg_int32]
  simp
  omega

/-- `strtol` on a hexadecimal number with its prefix. -/
theorem strtol_prefixed {given : Int} (prefixed : given = 0 ∨ given = 16)
    (digits : ∀ d ∈ ds, d < 16) :
    strtol ('0'.toUInt8 :: 'x'.toUInt8 :: (ds.map digitByte ++ 0 :: tail)) given =
      .ok (int32 (horner 16 ds : Nat), ds.length + 2) := by
  have read : strtolDigits 16 _ 0 = _ := strtolDigits_horner ds tail (le_refl 16) digits
  have blank : charInt '0'.toUInt8 ≠ ord ' ' ∧ charInt '0'.toUInt8 ≠ ord '\t' := by decide
  have signs : charInt '0'.toUInt8 ≠ ord '+' ∧ charInt '0'.toUInt8 ≠ ord '-' := by decide
  have hex : hexPrefix ('0'.toUInt8 :: 'x'.toUInt8 :: (ds.map digitByte ++ 0 :: tail)) =
      .ok true := rfl
  have based : strtolBase given ('0'.toUInt8 :: 'x'.toUInt8 :: (ds.map digitByte ++ 0 :: tail)) =
      .ok (16, ds.map digitByte ++ 0 :: tail) := by
    rw [strtolBase, if_pos prefixed, hex]
    rfl
  simp only [strtol, skipBlanks_cons blank.1 blank.2, Exec.ok_bind, readAt_head, signs.1, signs.2,
    or_self, if_false, based, read]
  simp
  omega

end Digits

/-! ### What snprintf prints -/

/-- The flags of these formats: no padding, or padding with zeros. -/
def Plain (flags : Flags) : Prop :=
  flags.lflag = 0 ∧ (flags.padc = ord '0' ∨ flags.width = -1)

/-- These formats are one escape with plain flags. -/
theorem numberFormat_escape (width : Option Nat) (c : Char) :
    ∃ s, numberFormat width c = escapeFormat s c ∧ (∀ b ∈ s, isFlag b = true) ∧
      ∀ ap, ∃ flags, applyFlags s {} ap = .ok (flags, ap) ∧ Plain flags := by
  cases width with
  | none => exact ⟨[], rfl, by simp, fun ap => ⟨{}, applyFlags_nil {} ap, rfl, .inr rfl⟩⟩
  | some w =>
    refine ⟨'0'.toUInt8 :: decimalBytes w, rfl, ?_, ?_⟩
    · rw [List.forall_mem_cons]
      exact ⟨by decide, isFlag_decimalBytes⟩
    · intro ap
      rw [applyFlags_zero, ← List.append_nil (decimalBytes w)]
      rcases Nat.eq_zero_or_pos w with rfl | positive
      · rw [applyFlags_decimal_zero, applyFlags_nil]
        exact ⟨_, rfl, rfl, .inl rfl⟩
      · rw [applyFlags_decimal positive [] rfl, applyFlags_nil]
        exact ⟨_, rfl, by simp, .inl (by simp)⟩

/-- With plain flags a number is printed as its numeral after some zeros. -/
theorem numberText_plain {flags : Flags} (plain : Plain flags) (base : Base) {num : Nat}
    (bound : num < 2 ^ 64) : ∃ zeros, numberText base num flags.width flags.padc =
      (List.replicate zeros 0 ++ numeral base.value num).map digitCode := by
  rcases plain.2 with zero | unset
  · refine ⟨(int32 (flags.width - (numeral base.value num).length)).toNat, ?_⟩
    rw [numberText, zero, List.map_append, List.map_replicate]
    rfl
  · refine ⟨0, ?_⟩
    rw [unset, numberText_unpadded base bound (Int.le_refl _) (by omega), digitsText]
    rfl

/-! ### The round trip -/

/-- What the text `out` is read back as, whatever follows its NUL. -/
def ReadsAs (base : Int) (out : List Int) (value : Int) : Prop :=
  ∀ tail, strtol (out.map UInt8.ofInt ++ 0 :: tail) base = .ok (value, out.length)

theorem map_digitCode (ds : List Nat) :
    (ds.map digitCode).map UInt8.ofInt = ds.map digitByte := List.map_map

/-- The digits of a plain number: below the base, not none, and of its value. -/
theorem digits_plain (base : Base) (num zeros : Nat) :
    (∀ d ∈ List.replicate zeros 0 ++ numeral base.value num, d < base.value) ∧
      List.replicate zeros 0 ++ numeral base.value num ≠ [] ∧
      horner base.value (List.replicate zeros 0 ++ numeral base.value num) = num := by
  have two := base.two_le
  refine ⟨?_, ?_, ?_⟩
  · intro d member
    rcases List.mem_append.mp member with zero | digit
    · rw [List.eq_of_mem_replicate zero]
      omega
    · exact numeral_lt two d digit
  · simp [numeral_ne_nil]
  · have leading : ∀ zeros, (List.replicate zeros 0).foldl (fun v d => v * base.value + d) 0 = 0 := by
      intro zeros
      induction zeros with
      | zero => rfl
      | succ zeros ih => simpa [List.replicate_succ] using ih
    rw [horner, List.foldl_append, leading]
    exact horner_numeral base.value num

theorem numberText_reads {flags : Flags} (plain : Plain flags) (base : Base) {num : Nat}
    (bound : num < 2 ^ 64) :
    ReadsAs base.value (numberText base num flags.width flags.padc) (int32 num) := by
  intro tail
  obtain ⟨zeros, text⟩ := numberText_plain plain base bound
  obtain ⟨below, nonempty, value⟩ := digits_plain base num zeros
  rw [text, map_digitCode, strtol_digits _ tail base.two_le base.le_sixteen nonempty below, value,
    List.length_map]

theorem numberText_reads_negative {flags : Flags} (plain : Plain flags) (base : Base) {num : Nat}
    (bound : num < 2 ^ 64) :
    ReadsAs base.value (ord '-' :: numberText base num flags.width flags.padc)
      (int32 (-num)) := by
  intro tail
  obtain ⟨zeros, text⟩ := numberText_plain plain base bound
  obtain ⟨below, nonempty, value⟩ := digits_plain base num zeros
  rw [text, List.map_cons, map_digitCode, show UInt8.ofInt (ord '-') = '-'.toUInt8 by decide,
    List.cons_append, strtol_negative _ tail base.two_le base.le_sixteen nonempty below, value,
    List.length_cons, List.length_map]

theorem numberText_reads_prefixed {flags : Flags} (plain : Plain flags) {num : Nat}
    (bound : num < 2 ^ 64) {given : Int} (prefixed : given = 0 ∨ given = 16) :
    ReadsAs given
      (ord '0' :: ord 'x' :: numberText .hexadecimal num flags.width flags.padc) (int32 num) := by
  intro tail
  obtain ⟨zeros, text⟩ := numberText_plain plain .hexadecimal bound
  obtain ⟨below, nonempty, value⟩ := digits_plain .hexadecimal num zeros
  have read := strtol_prefixed _ tail prefixed below
  rw [text, List.map_cons, List.map_cons, map_digitCode,
    show UInt8.ofInt (ord '0') = '0'.toUInt8 by decide,
    show UInt8.ofInt (ord 'x') = 'x'.toUInt8 by decide,
    List.cons_append, List.cons_append, read,
    show (16 : Nat) = Base.hexadecimal.value from rfl, value]
  simp

/-- A 32-bit number that is printed with its sign. -/
theorem signedText_reads {flags : Flags} (plain : Plain flags) (base : Base) (v : BitVec 32) :
    ReadsAs base.value (signedText (v.signExtend 64) base flags) v.toInt := by
  have extended : (v.signExtend 64).toInt = v.toInt := BitVec.toInt_signExtend_of_le (by decide)
  have low := v.le_toInt
  have high := v.toInt_lt
  have same : int32 v.toInt = v.toInt := int32_of_range (by omega) (by omega)
  have bound := natAbs_lt (v.signExtend 64)
  rw [signedText_eq, signText]
  rw [extended] at bound ⊢
  split
  · next negative =>
    have reads := numberText_reads_negative plain base bound
    rwa [show -(v.toInt.natAbs : Int) = v.toInt by omega, same] at reads
  · next nonneg =>
    have reads := numberText_reads plain base bound
    rwa [show (v.toInt.natAbs : Int) = v.toInt by omega, same] at reads

theorem int32_toNat (v : BitVec 32) : int32 v.toNat = v.toInt := by
  rw [BitVec.toInt_eq_toNat_bmod]
  rfl

/-- The text that each conversion prints with plain flags can be read back. -/
theorem convertText_reads (v : BitVec 32) {c : Char} {base : Int}
    (pair : (c, base) ∈ radixPairs) :
    ∃ k, conversion? c.toUInt8 = some k ∧ ∀ flags, Plain flags →
      ∃ out, convertText flags [.word v] k = .ok (out, []) ∧ ReadsAs base out v.toInt := by
  have short : ∀ flags, Plain flags → ¬flags.lflag ≥ 2 := by
    intro flags plain
    rw [plain.1]
    decide
  have bound : v.toNat < 2 ^ 64 := by omega
  -- one case for each conversion and base
  simp only [radixPairs, List.mem_cons, Prod.mk.injEq, List.not_mem_nil, or_false] at pair
  rcases pair with ⟨rfl, rfl⟩ | ⟨rfl, rfl⟩ | ⟨rfl, rfl⟩ | ⟨rfl, rfl⟩ | ⟨rfl, rfl⟩
  · refine ⟨.decimal, by decide, fun flags plain => ⟨_, ?_, signedText_reads plain .decimal v⟩⟩
    simp [convertText, getint, short flags plain, vaInt]
  · have wide : (v.zeroExtend 64).toNat = v.toNat := by
      rw [BitVec.toNat_setWidth]
      omega
    refine ⟨.hex, by decide, fun flags plain =>
      ⟨numberText .hexadecimal v.toNat flags.width flags.padc, ?_, ?_⟩⟩
    · simp only [convertText, getuint, short flags plain, vaInt, if_false, Exec.ok_bind,
        Exec.pure_eq_ok, wide]
    · rw [← int32_toNat]
      exact numberText_reads plain .hexadecimal bound
  · refine ⟨.octal, by decide, fun flags plain => ⟨_, ?_, signedText_reads plain .octal v⟩⟩
    simp [convertText, getint, short flags plain, vaInt]
  · refine ⟨.pointer, by decide, fun flags plain => ⟨_, rfl, ?_⟩⟩
    rw [← int32_toNat]
    exact numberText_reads_prefixed plain bound (.inl rfl)
  · refine ⟨.pointer, by decide, fun flags plain => ⟨_, rfl, ?_⟩⟩
    rw [← int32_toNat]
    exact numberText_reads_prefixed plain bound (.inr rfl)

/-- `strtol` undoes `snprintf`. -/
theorem strtol_snprintf (v : BitVec 32) (width : Option Nat) (c : Char) (base : Int)
    (pair : (c, base) ∈ radixPairs) :
    ∃ full, emitted (numberFormat width c) [.word v] = .ok (full, []) ∧
      ∀ (buf : List UInt8) (n : Int), full.length < n → n ≤ buf.length → n < 2147483648 →
        ∃ object,
          snprintf (some buf) n (numberFormat width c ++ [0]) [.word v] =
            .ok (full.length, some object) ∧
          object[full.length]? = some 0 ∧ strtol object base = .ok (v.toInt, full.length) := by
  obtain ⟨k, conversion, reads⟩ := convertText_reads v pair
  obtain ⟨s, format, all, applies⟩ := numberFormat_escape width c
  obtain ⟨flags, applied, plain⟩ := applies [.word v]
  obtain ⟨full, text, read⟩ := reads flags plain
  have noNul := escapeFormat_noNul all conversion
  have prints := (emitted_escape all conversion applied full []).mpr text
  rw [← format] at noNul prints
  refine ⟨full, prints, ?_⟩
  intro buf n room inside int
  -- the buffer has room for the whole text
  have all : stored n full = full.map UInt8.ofInt := by
    rw [stored, List.take_of_length_le (by omega)]
  have printed := vsnprintf_text noNul ((emitted_iff noNul ..).mp prints) (by omega) buf n
    (by omega) inside
  rw [all] at printed
  refine ⟨_, printed, ?_, read _⟩
  rw [List.getElem?_append_right (by simp)]
  simp

theorem strtol_snprintf_hex :
    ∃ full, emitted (numberFormat (some 9) 'x') [.word 0x80000000] = .ok (full, []) ∧
      ∀ (buf : List UInt8) (n : Int), full.length < n → n ≤ buf.length → n < 2147483648 →
        ∃ object,
          snprintf (some buf) n (numberFormat (some 9) 'x' ++ [0]) [.word 0x80000000] =
            .ok (full.length, some object) ∧
          object[full.length]? = some 0 ∧
          strtol object 16 = .ok ((0x80000000 : BitVec 32).toInt, full.length) :=
  strtol_snprintf 0x80000000 (some 9) 'x' 16 (by decide)

end Jos
