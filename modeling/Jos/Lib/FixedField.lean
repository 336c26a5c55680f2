import Jos.Lib.StringWidth

/-!
# Fields without a terminator

`strnlen` looks at the limit before it reads, and the loop that copies the characters reads
before it looks at the limit. So a precision bounds what is printed, and one byte more is read.
-/
namespace Jos

open Library

/-- The width of an escape. -/
inductive Width where
  | none
  | number (n : Nat) (positive : 0 < n)
  | star (w : BitVec 32)

/-- The width as it is written. -/
def Width.bytes : Width → List UInt8
  | none => []
  | number n _ => decimalBytes n
  | star _ => literal "*"

/-- The width as it is passed. -/
def Width.args : Width → VaList
  | none => []
  | number _ _ => []
  | star w => [.word w]

/-- `%.*s` after some flags and with a width. -/
def fixedFormat (s : List UInt8) (width : Width) : List UInt8 :=
  escapeFormat (s ++ (width.bytes ++ literal ".*")) 's'

theorem dotStar : literal ".*" = ['.'.toUInt8, '*'.toUInt8] := by decide

theorem star_bytes : literal "*" = ['*'.toUInt8] := by decide

theorem Width.isFlag (width : Width) : ∀ b ∈ width.bytes, isFlag b = true := by
  cases width with
  | none => simp [Width.bytes]
  | number n positive => exact isFlag_decimalBytes
  | star w =>
    intro b member
    rw [Width.bytes, star_bytes, List.mem_singleton] at member
    rw [member]
    decide

/-- Once the `.` has set a width, the `*` is the precision. -/
theorem applyFlags_dotStar (flags : Flags) (p : BitVec 32) (ap : VaList) :
    applyFlags (literal ".*") flags (.word p :: ap) =
      .ok ({ flags.dot with precision := p.toInt }, ap) := by
  have set : ¬flags.dot.width < 0 := by
    unfold Flags.dot
    split
    · exact Int.lt_irrefl 0
    · next nonneg => exact nonneg
  rw [dotStar, applyFlags_dot, applyFlags_star, Flags.processPrecision, if_neg set,
    applyFlags_nil]

theorem applyFlags_fixed {s : List UInt8} (choice : IsChoice s) (width : Width) (p : BitVec 32)
    (ap : VaList) : ∃ flags : Flags,
      applyFlags (s ++ (width.bytes ++ literal ".*")) {} (width.args ++ .word p :: ap) =
        .ok (flags, ap) ∧ flags.precision = p.toInt := by
  rw [applyFlags_choice choice]
  cases width with
  | none => exact ⟨_, applyFlags_dotStar _ p ap, rfl⟩
  | number n positive =>
    have ended : (literal ".*").takeWhile isDigit = [] := by
      rw [dotStar]
      decide
    rw [Width.bytes, Width.args, List.nil_append, applyFlags_decimal positive _ ended,
      applyFlags_dotStar]
    exact ⟨_, rfl, rfl⟩
  | star w =>
    rw [Width.bytes, Width.args, star_bytes, List.singleton_append, List.singleton_append,
      applyFlags_star, applyFlags_dotStar]
    exact ⟨_, rfl, rfl⟩

theorem not_readable_field {bytes : List UInt8} {p : Int} (fills : (bytes.length : Int) = p)
    (noNul : 0 ∉ bytes) : ¬readable p bytes := by
  rintro (nul | ⟨_, longer⟩)
  · exact noNul nul
  · omega

/-- What is printed of a field does not depend on the byte behind it. -/
theorem stringText_field {bytes : List UInt8} {flags : Flags}
    (fills : (bytes.length : Int) = flags.precision) (noNul : 0 ∉ bytes) (b : UInt8)
    (tail : List UInt8) :
    stringText flags (bytes ++ b :: tail) = stringText flags (bytes ++ 0 :: tail) := by
  have longer : flags.precision < (bytes ++ b :: tail).length := by
    rw [List.length_append, List.length_cons]
    omega
  have nonneg : 0 ≤ flags.precision := by omega
  have limited : ¬flags.precision < 0 := not_lt.mpr nonneg
  have count : flags.precision.toNat = bytes.length := by omega
  have nonzero : ∀ b ∈ bytes, (b != 0) = true := by
    intro b member
    rw [bne_iff_ne]
    rintro rfl
    exact noNul member
  -- both scans stop at the precision at the latest
  have same : shown flags.precision (bytes ++ b :: tail) =
      shown flags.precision (bytes ++ 0 :: tail) := by
    rw [shown, shown, if_neg limited, if_neg limited, count, takeWhile_nul noNul,
      List.takeWhile_append_of_pos nonzero, List.take_left', List.take_length]
    rfl
  have length : min ((bytes ++ b :: tail).takeWhile (· != 0)).length
        (flags.precision % 4294967296).toNat =
      min ((bytes ++ 0 :: tail).takeWhile (· != 0)).length
        (flags.precision % 4294967296).toNat := by
    rw [takeWhile_nul noNul, List.takeWhile_append_of_pos nonzero, List.length_append]
    omega
  have terminated : readable flags.precision (bytes ++ 0 :: tail) := .inl (by simp)
  have readByte : readable flags.precision (bytes ++ b :: tail) := .inr ⟨nonneg, longer⟩
  rw [stringText, stringText, if_pos readByte, if_pos terminated, same, length]

/-- On a field of exactly `p` bytes, with any flags and width, `%.*s` reads outside the field. -/
theorem fixedField_never {s : List UInt8} (choice : IsChoice s) (width : Width) {p : BitVec 32}
    {addr : BitVec 32} (nonnull : addr ≠ 0) {bytes : List UInt8}
    (fills : (bytes.length : Int) = p.toInt) (noNul : 0 ∉ bytes) (ap : VaList) :
    ¬∃ out rest, emitted (fixedFormat s width)
      (width.args ++ .word p :: .ptr addr bytes :: ap) = .ok (out, rest) := by
  rintro ⟨out, rest, printed⟩
  have all : ∀ b ∈ s ++ (width.bytes ++ literal ".*"), isFlag b = true := by
    rw [List.forall_mem_append, List.forall_mem_append]
    refine ⟨choice.isFlag, width.isFlag, ?_⟩
    rw [dotStar]
    decide +kernel
  have ended : conversion? 's'.toUInt8 = some .string := by decide
  obtain ⟨flags, applied, precision⟩ := applyFlags_fixed choice width p (.ptr addr bytes :: ap)
  have text := (emitted_escape all ended applied out rest).mp printed
  have fault : stringText flags bytes = .error .outOfBounds := by
    rw [stringText, precision, if_neg (not_readable_field fills noNul)]
  rw [convertText, vaString, if_neg nonnull] at text
  simp only [Exec.ok_bind, Option.getD_some, fault, Exec.error_bind] at text
  cases text

/-- The name of a partition, which fills its field. -/
theorem fixedField_never_eight :
    ¬∃ out rest, emitted (fixedFormat ['-'.toUInt8] (.star 10))
      [.word 10, .word 8, .ptr 0x10000 (literal "KERNIMG1")] = .ok (out, rest) :=
  fixedField_never (by simp [IsChoice]) (.star 10) (by decide) (by decide) (by decide) []

/-- The empty field. -/
theorem fixedField_empty :
    ¬∃ out rest, emitted (literal "%.*s") [.word 0, .ptr 0x10000 []] = .ok (out, rest) := by
  rintro ⟨out, rest, printed⟩
  have format : literal "%.*s" = escapeFormat (literal ".*") 's' := by decide
  have all : ∀ b ∈ literal ".*", isFlag b = true := by
    rw [dotStar]
    decide +kernel
  have ended : conversion? 's'.toUInt8 = some .string := by decide
  rw [format, emitted_escape all ended (applyFlags_dotStar {} 0 _)] at printed
  cases printed

end Jos
