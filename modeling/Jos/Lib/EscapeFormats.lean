import Jos.Lib.FormatText

/-!
# Formats of one escape

An escape is put together from flags, a width, a precision and a length modifier. What the
switch makes of each part does not depend on the parts after it.
-/
namespace Jos

open Library

def escapeFormat (s : List UInt8) (c : Char) : List UInt8 := '%'.toUInt8 :: (s ++ [c.toUInt8])

def digitByte (d : Nat) : UInt8 := UInt8.ofInt (digitCode d)

/-- A number as it is written in a format, without leading zeros. -/
def decimalBytes (n : Nat) : List UInt8 := (numeral 10 n).map digitByte

def longBytes (longs : Nat) : List UInt8 := List.replicate longs 'l'.toUInt8

/-- Some of the flags that stand before a width, in any order. -/
def IsChoice (s : List UInt8) : Prop :=
  ∀ b ∈ s, b = '-'.toUInt8 ∨ b = '0'.toUInt8 ∨ b = '#'.toUInt8

/-- The pad character after these flags: the last `-` or `0` decides. -/
def padChar (padc : Int) : List UInt8 → Int
  | [] => padc
  | b :: s =>
    padChar (if b = '-'.toUInt8 then ord '-' else if b = '0'.toUInt8 then ord '0' else padc) s

/-! ### The parts are flags -/

theorem isDigit_digitByte {d : Nat} (small : d < 10) : isDigit (digitByte d) = true := by
  interval_cases d <;> decide

theorem isFlag_decimalBytes {n : Nat} : ∀ b ∈ decimalBytes n, isFlag b = true := by
  intro b member
  obtain ⟨d, digit, rfl⟩ := List.mem_map.mp member
  exact isFlag_of_isDigit _ (isDigit_digitByte (numeral_lt (by decide) d digit))

theorem isFlag_longBytes {longs : Nat} : ∀ b ∈ longBytes longs, isFlag b = true := by
  intro b member
  rw [List.eq_of_mem_replicate member]
  decide

theorem IsChoice.isFlag {s : List UInt8} (choice : IsChoice s) : ∀ b ∈ s, isFlag b = true := by
  intro b member
  rcases choice b member with rfl | rfl | rfl <;> decide

section Escape

variable {s : List UInt8} (all : ∀ b ∈ s, isFlag b = true) {c : Char} {k : Conversion}
  (ended : conversion? c.toUInt8 = some k)
include all ended

theorem escapeFormat_noNul : 0 ∉ escapeFormat s c := by
  have nonzero : (0 : UInt8) ≠ c.toUInt8 := by
    intro zero
    rw [← zero, show conversion? 0 = none by decide] at ended
    cases ended
  have absent : 0 ∉ s := fun member => absurd (all 0 member) (by decide)
  have percent : (0 : UInt8) ≠ '%'.toUInt8 := by decide
  simp [escapeFormat, percent, absent, nonzero]

/-- Such a format prints what its conversion prints with the flags that come before it. -/
theorem emitted_escape {flags : Flags} {ap ap' : VaList}
    (applied : applyFlags s {} ap = .ok (flags, ap')) (out : List Int) (rest : VaList) :
    emitted (escapeFormat s c) ap = .ok (out, rest) ↔
      convertText flags ap' k = .ok (out, rest) := by
  have parsed : directives (escapeFormat s c) = [.escape s k] := by
    have escape := directives_escape all ended []
    rwa [directives_nil] at escape
  rw [emitted_iff (escapeFormat_noNul all ended), parsed]
  simp [formatText, Directive.textOf, applied]

end Escape

/-! ### What the switch makes of the parts -/

section Labels

variable (t : List UInt8) (flags : Flags) (ap : VaList)

theorem applyFlags_nil : applyFlags [] flags ap = .ok (flags, ap) := by
  rw [applyFlags]
  rfl

theorem applyFlags_minus : applyFlags ('-'.toUInt8 :: t) flags ap =
    applyFlags t { flags with padc := ord '-' } ap := by
  have label : switchLabel '-'.toUInt8 = .minus := by decide
  simp only [applyFlags, label]

theorem applyFlags_zero : applyFlags ('0'.toUInt8 :: t) flags ap =
    applyFlags t { flags with padc := ord '0' } ap := by
  have label : switchLabel '0'.toUInt8 = .zero := by decide
  simp only [applyFlags, label]

theorem applyFlags_alt : applyFlags ('#'.toUInt8 :: t) flags ap =
    applyFlags t { flags with altflag := true } ap := by
  have label : switchLabel '#'.toUInt8 = .alt := by decide
  simp only [applyFlags, label]

theorem applyFlags_long : applyFlags ('l'.toUInt8 :: t) flags ap =
    applyFlags t { flags with lflag := flags.lflag + 1 } ap := by
  have label : switchLabel 'l'.toUInt8 = .long := by decide
  simp only [applyFlags, label]

theorem applyFlags_dot : applyFlags ('.'.toUInt8 :: t) flags ap =
    applyFlags t flags.dot ap := by
  have label : switchLabel '.'.toUInt8 = .dot := by decide
  simp only [applyFlags, label]

theorem applyFlags_star (v : BitVec 32) : applyFlags ('*'.toUInt8 :: t) flags (.word v :: ap) =
    applyFlags t (Flags.processPrecision { flags with precision := v.toInt }) ap := by
  have label : switchLabel '*'.toUInt8 = .star := by decide
  simp only [applyFlags, label, vaInt, Exec.ok_bind]

end Labels

theorem applyFlags_choice {s : List UInt8} (choice : IsChoice s) (t : List UInt8) (flags : Flags)
    (ap : VaList) : applyFlags (s ++ t) flags ap = applyFlags t { flags with
      padc := padChar flags.padc s, altflag := flags.altflag || s.contains '#'.toUInt8 } ap := by
  induction s generalizing flags with
  | nil => simp [padChar]
  | cons b s ih =>
    have later := fun flags => ih (fun x member => choice x (by simp [member])) flags
    rw [List.cons_append]
    rcases choice b (by simp) with rfl | rfl | rfl
    · rw [applyFlags_minus, later]
      simp [padChar, show '#'.toUInt8 ≠ '-'.toUInt8 by decide]
    · rw [applyFlags_zero, later]
      simp [padChar, show '0'.toUInt8 ≠ '-'.toUInt8 by decide,
        show '#'.toUInt8 ≠ '0'.toUInt8 by decide]
    · rw [applyFlags_alt, later]
      simp [padChar, show '#'.toUInt8 ≠ '-'.toUInt8 by decide,
        show '#'.toUInt8 ≠ '0'.toUInt8 by decide]

theorem applyFlags_longs (longs : Nat) (flags : Flags) (ap : VaList) :
    applyFlags (longBytes longs) flags ap =
      .ok ({ flags with lflag := flags.lflag + longs }, ap) := by
  induction longs generalizing flags with
  | zero => exact applyFlags_nil flags ap
  | succ longs ih =>
    rw [longBytes, List.replicate_succ, applyFlags_long, ← longBytes, ih, Nat.add_assoc,
      Nat.add_comm 1]

/-- The digits of a number are read as the number modulo 2^32. -/
theorem precisionOf_digits (ds : List Nat) (digits : ∀ d ∈ ds, d < 10) (n : Nat) :
    precisionOf (int32 n) (ds.map digitByte) =
      int32 (ds.foldl (fun v d => v * 10 + d) n : Nat) := by
  induction ds generalizing n with
  | nil => rfl
  | cons d ds ih =>
    have value : ((digitByte d).toNat : Int) - ord '0' = d := by
      have small := digits d (by simp)
      interval_cases d <;> rfl
    have step : int32 (int32 n * 10 + (digitByte d).toNat - ord '0') = int32 (n * 10 + d : Nat) := by
      rw [Int.add_sub_assoc, value, ← int32_int32_add, int32_int32_mul, int32_int32_add]
      push_cast
      rfl
    rw [List.map_cons, precisionOf, step, ih (fun x member => digits x (by simp [member])),
      List.foldl_cons]

/-- A positive number after which no digit comes. -/
theorem applyFlags_decimal {n : Nat} (positive : 0 < n) (t : List UInt8)
    (ended : t.takeWhile isDigit = []) (flags : Flags) (ap : VaList) :
    applyFlags (decimalBytes n ++ t) flags ap =
      applyFlags t (Flags.processPrecision { flags with precision := int32 n }) ap := by
  have below : ∀ d ∈ numeral 10 n, d < 10 := numeral_lt (by decide)
  have value : precisionOf 0 (decimalBytes n) = int32 n := by
    have read := precisionOf_digits (numeral 10 n) below 0
    change precisionOf (int32 0) _ = int32 (horner 10 (numeral 10 n) : Nat) at read
    rwa [horner_numeral] at read
  obtain ⟨d, ds, digits⟩ := List.exists_cons_of_ne_nil (numeral_ne_nil 10 n)
  -- the first digit is not the flag `0`
  have first : switchLabel (digitByte d) = .digit := by
    have nonzero : d ≠ 0 := by
      rintro rfl
      have := @head?_numeral 10 n (by rw [digits]; rfl)
      omega
    have small := below d (by simp [digits])
    interval_cases d <;> first | exact absurd rfl nonzero | decide
  have more : ∀ b ∈ ds.map digitByte, isDigit b = true := by
    intro b member
    obtain ⟨e, inside, rfl⟩ := List.mem_map.mp member
    exact isDigit_digitByte (below e (by simp [digits, inside]))
  have rest : t.dropWhile isDigit = t := by
    have whole := List.takeWhile_append_dropWhile (p := isDigit) (l := t)
    rwa [ended, List.nil_append] at whole
  have bytes : decimalBytes n = digitByte d :: ds.map digitByte := by
    rw [decimalBytes, digits, List.map_cons]
  rw [bytes] at value
  rw [bytes, List.cons_append, applyFlags]
  simp only [first, List.takeWhile_append_of_pos more, List.dropWhile_append_of_pos more, ended,
    rest, List.append_nil, value]

/-- Zero is written as the flag `0`. -/
theorem applyFlags_decimal_zero (t : List UInt8) (flags : Flags) (ap : VaList) :
    applyFlags (decimalBytes 0 ++ t) flags ap = applyFlags t { flags with padc := ord '0' } ap := by
  have bytes : decimalBytes 0 = ['0'.toUInt8] := by decide
  rw [bytes, List.cons_append, List.nil_append, applyFlags_zero]

theorem isFlag_stars : ∀ b ∈ literal "*.*", isFlag b = true := by decide +kernel

/-- A width and a precision that are taken from the arguments. -/
theorem applyFlags_stars {flags : Flags} (unset : flags.width < 0) {w : BitVec 32}
    (nonneg : 0 ≤ w.toInt) (p : BitVec 32) (ap : VaList) :
    applyFlags (literal "*.*") flags (.word w :: .word p :: ap) =
      .ok ({ flags with width := w.toInt, precision := p.toInt }, ap) := by
  have bytes : literal "*.*" = ['*'.toUInt8, '.'.toUInt8, '*'.toUInt8] := by decide
  -- the first number is the width, and the second one is left as the precision
  rw [bytes, applyFlags_star, Flags.processPrecision, if_pos unset, applyFlags_dot, Flags.dot,
    if_neg (not_lt.mpr nonneg), applyFlags_star, Flags.processPrecision,
    if_neg (not_lt.mpr nonneg), applyFlags_nil]

end Jos
