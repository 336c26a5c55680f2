import Jos.Lib.EscapeFormats

/-!
# Strings in a field

A string is cut to its precision and padded to its width. Where the padding comes before it,
`width` is used up when the characters are printed, and they count it down once more.
-/
namespace Jos

open Library

/-- The bytes that a precision allows; a negative one allows all. -/
def limit (p : Int) (bytes : List UInt8) : List UInt8 :=
  if p < 0 then bytes else bytes.take p.toNat

theorem length_limit_le (p : Int) (bytes : List UInt8) :
    (limit p bytes).length ≤ bytes.length := by
  unfold limit
  split
  · exact Nat.le_refl _
  · exact List.length_take_le' ..

/-- The characters of a string that are printed. -/
def bodyText (altflag : Bool) (p : Int) (s : CString) : List Int :=
  (limit p s.bytes).map (charText altflag)

theorem length_bodyText_lt (altflag : Bool) (p : Int) (s : CString) :
    (bodyText altflag p s).length < 2147483647 := by
  rw [bodyText, List.length_map]
  exact Nat.lt_of_le_of_lt (length_limit_le p s.bytes) s.fits

/-- A text in a field, padded with blanks on the right for the flag `-`. -/
def fieldText (padc : Int) (w : Nat) (body : List Int) : List Int :=
  if padc = ord '-' then body.rightpad w (ord ' ') else body.leftpad w padc

theorem length_fieldText (padc : Int) (w : Nat) (body : List Int) :
    (fieldText padc w body).length = max w body.length := by
  unfold fieldText
  split
  · exact List.length_rightpad
  · exact List.length_leftpad

/-- The text `body` in a field of width `w`. -/
structure InField (padc : Int) (w : Nat) (body out : List Int) : Prop where
  text : out = fieldText padc w body
  total : out.length = max w body.length

theorem InField.of_text {padc : Int} {w : Nat} {body out : List Int}
    (text : out = fieldText padc w body) : InField padc w body out :=
  ⟨text, by rw [text, length_fieldText]⟩

/-- What is left of a width, as an `int`, that the padding has used up and that `n` characters
have counted down once more. -/
def leftover (width : Int) (n : Nat) : Nat := (int32 (min (width - n) 0 - n)).toNat

theorem leftover_eq_zero_iff {width : Int} {n : Nat} (positive : 0 < width)
    (int : width < 2147483648) (short : n < 2147483647) :
    leftover width n = 0 ↔ 2 * (n : Int) ≤ width + 2147483648 := by
  obtain ⟨turns, value, low, high⟩ := int32_wraps (min (width - n) 0 - n)
  unfold leftover
  omega

/-! ### The two ways to pad -/

section Text

variable {flags : Flags} (s : CString) (tail : List UInt8)

/-- An object that begins with the string. -/
def CString.before (s : CString) (tail : List UInt8) : List UInt8 := s.bytes ++ 0 :: tail

theorem takeWhile_before : (s.before tail).takeWhile (· != 0) = s.bytes :=
  takeWhile_nul s.noNul tail

theorem readable_before (precision : Int) : readable precision (s.before tail) :=
  .inl (by simp [CString.before])

theorem shown_before (precision : Int) :
    shown precision (s.before tail) = limit precision s.bytes := by
  rw [shown, takeWhile_before, limit]

/-- `strnlen` takes a negative precision for a very large one, and still finds the NUL. -/
theorem strnlen_limit {precision : Int} (low : -2147483648 ≤ precision)
    (high : precision < 2147483648) :
    min s.bytes.length (precision % 4294967296).toNat = (limit precision s.bytes).length := by
  have fits := s.fits
  unfold limit
  split
  · omega
  · rw [List.length_take]
    omega

variable (nonneg : 0 ≤ flags.width) (int : flags.width < 2147483648)
  (low : -2147483648 ≤ flags.precision) (high : flags.precision < 2147483648)
include nonneg int

/-- Without a width, or with the flag `-`, the blanks come after the string. -/
theorem stringText_right (right : ¬(flags.width > 0 ∧ flags.padc ≠ ord '-')) :
    stringText flags (s.before tail) =
      .ok ((bodyText flags.altflag flags.precision s).rightpad flags.width.toNat (ord ' ')) := by
  have short := length_bodyText_lt flags.altflag flags.precision s
  have blanks : (countDown (limit flags.precision s.bytes).length flags.width).toNat =
      flags.width.toNat - (bodyText flags.altflag flags.precision s).length := by
    rw [bodyText, List.length_map] at short ⊢
    rw [countDown_of_range _ _ (by omega) int]
    omega
  rw [stringText, if_pos (readable_before s tail _)]
  simp only [right, if_false, shown_before, blanks]
  rfl

include low high

/-- With another pad character it comes before the string, and what has been counted down below
zero after it may come out positive again. -/
theorem stringText_left (left : flags.width > 0 ∧ flags.padc ≠ ord '-') :
    stringText flags (s.before tail) =
      .ok ((bodyText flags.altflag flags.precision s).leftpad flags.width.toNat flags.padc ++
        List.replicate
          (leftover flags.width (bodyText flags.altflag flags.precision s).length) (ord ' ')) := by
  have short := length_bodyText_lt flags.altflag flags.precision s
  have body : (limit flags.precision s.bytes).length =
      (bodyText flags.altflag flags.precision s).length := by rw [bodyText, List.length_map]
  have room : int32 (flags.width - (bodyText flags.altflag flags.precision s).length) =
      flags.width - (bodyText flags.altflag flags.precision s).length :=
    int32_of_range (by omega) (by omega)
  have amount : (flags.width - (bodyText flags.altflag flags.precision s).length).toNat =
      flags.width.toNat - (bodyText flags.altflag flags.precision s).length := by omega
  rw [stringText, if_pos (readable_before s tail _)]
  simp only [left, ne_eq, not_false_eq_true, and_self, if_true, takeWhile_before,
    strnlen_limit s low high, shown_before, body, room, amount]
  rw [countDown_eq _ (int32_of_range (by omega) (by omega))]
  rfl

end Text

/-! ### Width and precision -/

section Star

variable {s : List UInt8} (choice : IsChoice s) {w : BitVec 32} (nonneg : 0 ≤ w.toInt)
  (p : BitVec 32) (str : CString) (tail : List UInt8) {addr : BitVec 32} (nonnull : addr ≠ 0) (ap : VaList)

/-- A conversion after flags, with its width and precision among the arguments. -/
def starFormat (s : List UInt8) (c : Char) : List UInt8 := escapeFormat (s ++ literal "*.*") c

/-- What the escape has set when the conversion comes. -/
def starFlags (s : List UInt8) (w p : BitVec 32) : Flags where
  padc := padChar (ord ' ') s
  width := w.toInt
  precision := p.toInt
  altflag := s.contains '#'.toUInt8

include choice nonneg nonnull in
theorem emitted_star {out : List Int}
    (text : stringText (starFlags s w p) (str.before tail) = .ok out) :
    emitted (starFormat s 's') (.word w :: .word p :: .ptr addr (str.before tail) :: ap) =
      .ok (out, ap) := by
  have all : ∀ b ∈ s ++ literal "*.*", isFlag b = true := by
    rw [List.forall_mem_append]
    exact ⟨choice.isFlag, isFlag_stars⟩
  have applied : applyFlags (s ++ literal "*.*") {}
      (.word w :: .word p :: .ptr addr (str.before tail) :: ap) =
        .ok (starFlags s w p, .ptr addr (str.before tail) :: ap) := by
    rw [applyFlags_choice choice]
    exact applyFlags_stars (by simp) nonneg p _
  have ended : conversion? 's'.toUInt8 = some .string := by decide
  rw [starFormat, emitted_escape all ended applied, convertText, vaString, if_neg nonnull]
  simp [text]

include choice nonneg nonnull in
/-- A string has its width and precision exactly if it is padded on the right, or has no width,
or is not so long that its width is counted down below the least `int`. -/
theorem stringField_iff :
    ∃ out, emitted (starFormat s 's') (.word w :: .word p :: .ptr addr (str.before tail) :: ap) =
        .ok (out, ap) ∧
      (InField (padChar (ord ' ') s) w.toInt.toNat
          (bodyText (s.contains '#'.toUInt8) p.toInt str) out ↔
        padChar (ord ' ') s = ord '-' ∨ w.toInt = 0 ∨
          2 * ((bodyText (s.contains '#'.toUInt8) p.toInt str).length : Int) ≤
            w.toInt + 2147483648) := by
  have int : w.toInt < 2147483648 := w.toInt_lt
  have low : -2147483648 ≤ p.toInt := p.le_toInt
  have high : p.toInt < 2147483648 := p.toInt_lt
  have short := length_bodyText_lt (s.contains '#'.toUInt8) p.toInt str
  by_cases left : w.toInt > 0 ∧ padChar (ord ' ') s ≠ ord '-'
  · have text := @stringText_left (starFlags s w p) str tail nonneg int low high left
    refine ⟨_, emitted_star choice nonneg p str tail nonnull ap text, ?_⟩
    have blanks := leftover_eq_zero_iff left.1 int short
    rw [or_iff_right left.2, or_iff_right (by omega), ← blanks]
    simp only [starFlags]
    generalize bodyText (s.contains '#'.toUInt8) p.toInt str = body
    constructor
    · rintro ⟨_, total⟩
      -- the field alone has the full length
      rw [List.length_append, List.length_leftpad, List.length_replicate] at total
      omega
    · intro none
      rw [none, List.replicate_zero, List.append_nil]
      exact .of_text (by rw [fieldText, if_neg left.2])
  · have text := @stringText_right (starFlags s w p) str tail nonneg int left
    refine ⟨_, emitted_star choice nonneg p str tail nonnull ap text, ?_⟩
    simp only [starFlags]
    generalize bodyText (s.contains '#'.toUInt8) p.toInt str = body
    constructor
    · intro _
      by_cases right : padChar (ord ' ') s = ord '-'
      · exact .inl right
      · exact .inr (.inl (by
          by_contra width
          exact left ⟨by omega, right⟩))
    · intro _
      apply InField.of_text
      unfold fieldText
      split
      · rfl
      · next right =>
        -- without a width neither way pads
        have zero : w.toInt.toNat = 0 := by
          by_contra width
          exact left ⟨by omega, right⟩
        rw [zero, List.rightpad, List.leftpad, Nat.zero_sub, List.replicate_zero,
          List.replicate_zero, List.append_nil, List.nil_append]

end Star

/-- A string of two characters, of which one is printed. -/
theorem stringField_iff_one :
    let str : CString := ⟨[0x61, 0x07], by decide, by decide⟩
    ∃ out, emitted (starFormat ['0'.toUInt8, '#'.toUInt8] 's')
        [.word 4, .word 1, .ptr 1 (str.before [0x62])] = .ok (out, []) ∧
      (InField (padChar (ord ' ') ['0'.toUInt8, '#'.toUInt8]) (4 : BitVec 32).toInt.toNat
          (bodyText (['0'.toUInt8, '#'.toUInt8].contains '#'.toUInt8) (1 : BitVec 32).toInt str)
          out ↔
        padChar (ord ' ') ['0'.toUInt8, '#'.toUInt8] = ord '-' ∨ (4 : BitVec 32).toInt = 0 ∨
          2 * ((bodyText (['0'.toUInt8, '#'.toUInt8].contains '#'.toUInt8)
            (1 : BitVec 32).toInt str).length : Int) ≤ (4 : BitVec 32).toInt + 2147483648) := by
  have choice : IsChoice ['0'.toUInt8, '#'.toUInt8] := by
    intro b member
    simp only [List.mem_cons, List.not_mem_nil, or_false] at member
    exact .inr member
  exact stringField_iff choice (by decide) 1 _ [0x62] (by decide) []

/-- One character more than 2^30. -/
def longString : CString where
  bytes := List.replicate 1073741825 'a'.toUInt8
  noNul := by
    rw [List.mem_replicate]
    rintro ⟨_, zero⟩
    exact absurd zero (by decide)
  fits := by
    rw [List.length_replicate]
    decide

/-- With a width of one it is followed by as many blanks as there are positive ints. -/
theorem stringField_long :
    ∃ out, emitted (starFormat [] 's') [.word 1, .word (-1), .ptr 1 (longString.before [])] =
        .ok (out, []) ∧
      out = bodyText false (-1) longString ++ List.replicate 2147483647 (ord ' ') ∧
      ¬InField (ord ' ') 1 (bodyText false (-1) longString) out := by
  have count : (bodyText false (-1) longString).length = 1073741825 := by
    rw [bodyText, List.length_map, limit, if_pos (by decide)]
    exact List.length_replicate
  have text := @stringText_left (starFlags [] 1 (-1)) longString [] (by decide)
    (by decide) (by decide) (by decide) (by decide)
  have width : (starFlags [] 1 (-1)).width = 1 := by decide
  have precision : (starFlags [] 1 (-1)).precision = -1 := by decide
  have padc : (starFlags [] 1 (-1)).padc = ord ' ' := rfl
  have altflag : (starFlags [] 1 (-1)).altflag = false := rfl
  have blanks : leftover 1 1073741825 = 2147483647 := by decide
  have unpadded : (bodyText false (-1) longString).leftpad (1 : Int).toNat (ord ' ') =
      bodyText false (-1) longString := by
    rw [List.leftpad, count, Nat.sub_eq_zero_of_le (by decide), List.replicate_zero,
      List.nil_append]
  rw [width, precision, padc, altflag, count, blanks, unpadded] at text
  refine ⟨_, emitted_star (by simp [IsChoice]) (by decide) (-1) longString [] (by decide) [] text,
    rfl, ?_⟩
  rintro ⟨_, total⟩
  rw [List.length_append, List.length_replicate, count] at total
  exact absurd total (by decide)

end Jos
