import Jos.Lib.Directives
import Jos.Library.Numeral

/-!
# What a format prints

The text of every directive as a function of its flags and arguments, without a callback.
`vprintfmt_text` connects it to the code: whenever the text exists, `vprintfmt` passes it to
its callback, whatever that is.
-/
namespace Jos

open Library

variable {σ : Type}

/-! ### Text of the conversions -/

def digitCode (d : Nat) : Int := if d < 10 then d + 48 else d + 87

def numberText (base : Base) (num : Nat) (width padc : Int) : List Int :=
  List.replicate (int32 (width - (numeral base.value num).length)).toNat padc ++
    (numeral base.value num).map digitCode

def signedText (num : BitVec 64) (base : Base) (flags : Flags) : List Int :=
  if num.toInt < 0 then
    ord '-' :: numberText base (-num).toNat flags.width flags.padc
  else numberText base num.toNat flags.width flags.padc

/-- Whether a string can be printed up to the precision: it ends, or it is longer. -/
def readable (precision : Int) (p : List UInt8) : Prop :=
  0 ∈ p ∨ (0 ≤ precision ∧ precision < p.length)

instance (precision : Int) (p : List UInt8) : Decidable (readable precision p) :=
  inferInstanceAs (Decidable (_ ∨ _))

/-- The bytes of a string that are printed; a negative precision is none. -/
def shown (precision : Int) (p : List UInt8) : List UInt8 :=
  if precision < 0 then p.takeWhile (· != 0) else (p.takeWhile (· != 0)).take precision.toNat

def charText (altflag : Bool) (b : UInt8) : Int :=
  if altflag ∧ (charInt b < ord ' ' ∨ charInt b > ord '~') then ord '?' else charInt b

/-- `width` after it has been counted down `n` times. -/
def countDown : Nat → Int → Int
  | 0, width => width
  | n + 1, width => countDown n (int32 (width - 1))

def stringText (flags : Flags) (p : List UInt8) : Exec (List Int) :=
  if readable flags.precision p then
    let s := shown flags.precision p
    let body := s.map (charText flags.altflag)
    if flags.width > 0 ∧ flags.padc ≠ ord '-' then
      let length := min (p.takeWhile (· != 0)).length (flags.precision % 4294967296).toNat
      let width := int32 (flags.width - length)
      .ok (List.replicate width.toNat flags.padc ++ body ++
        List.replicate (countDown s.length (min width 0)).toNat (ord ' '))
    else
      .ok (body ++ List.replicate (countDown s.length flags.width).toNat (ord ' '))
  else .error .outOfBounds

def errorText (err : Int) : Exec (List Int) := do
  let err := if err < 0 then int32 (-err) else err
  let unknown := (literal "error ").map charInt ++
    signedText ((BitVec.ofInt 32 err).signExtend 64) .decimal {}
  if err ≥ MAXERROR then pure unknown
  else
    match ← readAt errorString err with
    | none => pure unknown
    | some p => pure (p.map charInt)

/-- The text of a conversion, and the arguments after it. -/
def convertText (flags : Flags) (ap : VaList) : Conversion → Exec (List Int × VaList)
  | .char => do
    let (v, ap) ← vaInt ap
    pure ([v.toInt], ap)
  | .error => do
    let (v, ap) ← vaInt ap
    let out ← errorText v.toInt
    pure (out, ap)
  | .string => do
    let (p, ap) ← vaString ap
    let out ← stringText flags (p.getD (literal "(null)" ++ [0]))
    pure (out, ap)
  | .decimal => do
    let (num, ap) ← getint ap flags.lflag
    pure (signedText num .decimal flags, ap)
  | .unsigned => do
    let (num, ap) ← getuint ap flags.lflag
    pure (numberText .decimal num.toNat flags.width flags.padc, ap)
  | .octal => do
    let (num, ap) ← getint ap flags.lflag
    pure (signedText num .octal flags, ap)
  | .pointer => do
    let (v, ap) ← vaInt ap
    pure (ord '0' :: ord 'x' :: numberText .hexadecimal v.toNat flags.width flags.padc, ap)
  | .hex => do
    let (num, ap) ← getuint ap flags.lflag
    pure (numberText .hexadecimal num.toNat flags.width flags.padc, ap)
  | .percent => pure ([ord '%'], ap)

def Directive.textOf : Directive → VaList → Exec (List Int × VaList)
  | .text b, ap => pure ([b.toNat], ap)
  | .escape s c, ap => do
    let (flags, ap) ← applyFlags s {} ap
    convertText flags ap c
  | .stray s, ap | .cut s, ap => do
    let (_, ap) ← applyFlags s {} ap
    pure ([ord '%'], ap)

def formatText : List Directive → VaList → Exec (List Int × VaList)
  | [], ap => pure ([], ap)
  | directive :: rest, ap => do
    let (out, ap) ← directive.textOf ap
    let (more, ap) ← formatText rest ap
    pure (out ++ more, ap)

/-! ### Numbers -/

theorem pad_text (putch : Putch σ) (padc : Int) (n : Nat) (d : σ) :
    pad putch padc n d = putAll putch (List.replicate n padc) d := by
  induction n generalizing d with
  | zero => rfl
  | succ n ih =>
    rw [List.replicate_succ, putAll_cons, pad]
    exact bind_congr ih

theorem readAt_digit (d : Nat) (small : d < 16) :
    ∃ b, readAt (literal "0123456789abcdef") d = .ok b ∧ charInt b = digitCode d := by
  interval_cases d <;> exact ⟨_, rfl, by decide⟩

theorem numberText_of_lt (base : Base) {num : Nat} (small : num < base.value)
    (width padc : Int) : numberText base num width padc =
      List.replicate (int32 (width - 1)).toNat padc ++ [digitCode num] := by
  simp [numberText, numeral_of_lt small]

theorem numberText_of_le (base : Base) {num : Nat} (large : base.value ≤ num)
    (width padc : Int) : numberText base num width padc =
      numberText base (num / base.value) (int32 (width - 1)) padc ++
        [digitCode (num % base.value)] := by
  have digits := numeral_of_le base.two_le large
  -- the recursion of `printnum` counts the width down once a digit, as an `int`
  have width' : int32 (int32 (width - 1) - (numeral base.value (num / base.value)).length) =
      int32 (width - ((numeral base.value (num / base.value)).length + 1 : Nat)) := by
    rw [int32_int32_sub]
    congr 1
    omega
  simp [numberText, digits, width']

theorem printnum_text (putch : Putch σ) (num : Nat) (base : Base) (width padc : Int) (d : σ) :
    printnum putch num base width padc d = putAll putch (numberText base num width padc) d := by
  induction num using Nat.strong_induction_on generalizing width d with
  | _ num ih =>
    have two := base.two_le
    have bound := base.le_sixteen
    have digit : num % base.value < 16 :=
      Nat.lt_of_lt_of_le (Nat.mod_lt _ (by omega)) bound
    obtain ⟨b, found, code⟩ := readAt_digit _ digit
    rw [printnum, found]
    -- the leading digits are printed by the recursive call
    by_cases large : base.value ≤ num
    · have smaller : num / base.value < num := Nat.div_lt_self (by omega) (by omega)
      rw [if_pos large, ih _ smaller, numberText_of_le base large, putAll_append]
      simp [code]
    · -- the first digit comes after the padding
      have small : num < base.value := by omega
      rw [if_neg large, pad_text, numberText_of_lt base small, putAll_append]
      simp [code, Nat.mod_eq_of_lt small]

theorem putSigned_text (putch : Putch σ) (num : BitVec 64) (base : Base) (flags : Flags) (d : σ) :
    putSigned putch num base flags d = putAll putch (signedText num base flags) d := by
  unfold putSigned signedText
  split
  · rw [putAll_cons]
    exact bind_congr fun d => printnum_text ..
  · exact printnum_text ..

/-! ### Strings -/

/-- Counting down wraps as often as a single subtraction does. -/
theorem countDown_eq (n : Nat) {width : Int} (int : int32 width = width) :
    countDown n width = int32 (width - n) := by
  induction n generalizing width with
  | zero => rw [countDown, Int.natCast_zero, Int.sub_zero, int]
  | succ n ih =>
    rw [countDown, ih (int32_int32 _), int32_int32_sub]
    congr 1
    omega

theorem countDown_of_range (n : Nat) (width : Int) (low : -2147483648 ≤ width - n)
    (high : width < 2147483648) : countDown n width = width - n := by
  rw [countDown_eq n (int32_of_range (by omega) high), int32_of_range low (by omega)]

theorem shown_nul (precision : Int) (p : List UInt8) : shown precision (0 :: p) = [] := by
  simp [shown]

theorem shown_zero (p : List UInt8) : shown 0 p = [] := by
  simp [shown]

/-- The precision that is left after a character. -/
theorem shown_cons (precision : Int) {b : UInt8} (nonzero : b ≠ 0) (p : List UInt8)
    (room : precision ≠ 0) : shown precision (b :: p) =
      b :: shown (if precision < 0 then precision else precision - 1) p := by
  unfold shown
  by_cases unlimited : precision < 0
  · simp [unlimited, nonzero]
  · -- a limit that is not used up allows this character
    obtain ⟨n, count⟩ : ∃ n, precision.toNat = n + 1 := ⟨precision.toNat - 1, by omega⟩
    have left : (precision - 1).toNat = n := by omega
    simp [unlimited, nonzero, count, left, show ¬precision < 1 by omega]

theorem readable_cons (precision : Int) {b : UInt8} (nonzero : b ≠ 0) (p : List UInt8)
    (room : precision ≠ 0) : readable precision (b :: p) ↔
      readable (if precision < 0 then precision else precision - 1) p := by
  unfold readable
  rw [List.mem_cons, or_iff_right (Ne.symm nonzero), List.length_cons]
  by_cases unlimited : precision < 0
  · simp [unlimited, show ¬0 ≤ precision by omega]
  · rw [if_neg unlimited]
    exact or_congr_right (by omega)

theorem putChars_text (putch : Putch σ) (altflag : Bool) (precision width : Int)
    (p : List UInt8) (d : σ) (printable : readable precision p) :
    putChars putch altflag precision width p d = (do
      let d ← putAll putch ((shown precision p).map (charText altflag)) d
      pure (countDown (shown precision p).length width, d)) := by
  induction p generalizing precision width d with
  | nil => simp [readable] at printable; omega
  | cons b p ih =>
    by_cases nul : b = 0
    · simp [putChars, nul, shown_nul, countDown, show charInt 0 = 0 by decide]
    have nonzero : charInt b ≠ 0 := by rwa [ne_eq, charInt_eq_zero_iff]
    by_cases full : precision = 0
    · simp [putChars, full, shown_zero, countDown]
    -- neither the NUL nor the limit has been reached
    have more : charInt b ≠ 0 ∧ (precision < 0 ∨ precision - 1 ≥ 0) := ⟨nonzero, by omega⟩
    have later := fun d => ih _ (int32 (width - 1)) d ((readable_cons precision nul p full).mp printable)
    rw [putChars, if_pos more, shown_cons precision nul p full, List.map_cons, putAll_cons]
    simp only [later, List.length_cons, countDown, bind_assoc]
    rfl

theorem putChars_fault (altflag : Bool) (precision width : Int) (p : List UInt8)
    (out : List Int) (unreadable : ¬readable precision p) :
    putChars record altflag precision width p out = .error .outOfBounds := by
  induction p generalizing precision width out with
  | nil => rfl
  | cons b p ih =>
    have nonzero : b ≠ 0 := by
      rintro rfl
      exact unreadable (.inl (by simp))
    have room : precision ≠ 0 := by
      rintro rfl
      exact unreadable (.inr (by simp))
    -- a string that cannot be read is not at its end, and below its limit
    have more : charInt b ≠ 0 ∧ (precision < 0 ∨ precision - 1 ≥ 0) :=
      ⟨by rwa [ne_eq, charInt_eq_zero_iff], by
        by_contra negative
        exact unreadable (.inr (by simp; omega))⟩
    have later := fun out => ih _ (int32 (width - 1)) out
      (fun printable => unreadable ((readable_cons precision nonzero p room).mpr printable))
    rw [putChars, if_pos more]
    simp only [record, Exec.ok_bind, later]

theorem putString_text (flags : Flags) (p : Option (List UInt8)) (out : List Int)
    (text : stringText flags (p.getD (literal "(null)" ++ [0])) = .ok out)
    (putch : Putch σ) (d : σ) : putString putch flags p d = putAll putch out d := by
  unfold stringText at text
  unfold putString
  generalize p.getD (literal "(null)" ++ [0]) = s at text ⊢
  by_cases printable : readable flags.precision s
  · -- so `strnlen` stays inside the string, too
    have within : 0 ∈ s ∨ (flags.precision % 4294967296).toNat ≤ s.length :=
      printable.imp id (by omega)
    rw [if_pos printable] at text
    dsimp only at text ⊢
    split at text
    · next padded =>
      cases text
      rw [if_pos padded, strnlen_eq s _ within]
      simp [pad_text, putChars_text, printable, putAll_append]
    · next unpadded =>
      cases text
      rw [if_neg unpadded]
      simp [pad_text, putChars_text, printable, putAll_append]
  · simp [printable] at text

theorem putString_fault (flags : Flags) (p : Option (List UInt8)) (e : Fault)
    (noText : stringText flags (p.getD (literal "(null)" ++ [0])) = .error e) (out : List Int) :
    ∃ e', putString record flags p out = .error e' := by
  unfold stringText at noText
  unfold putString
  generalize p.getD (literal "(null)" ++ [0]) = s at noText ⊢
  by_cases printable : readable flags.precision s
  · rw [if_pos printable] at noText
    dsimp only at noText
    split at noText <;> cases noText
  · dsimp only
    split
    · -- the padding is the first to read the string
      cases strnlen s (flags.precision % 4294967296).toNat with
      | error e => exact ⟨e, rfl⟩
      | ok n => exact ⟨.outOfBounds, by simp [pad_text, putChars_fault, printable]⟩
    · exact ⟨.outOfBounds, by simp [putChars_fault, printable]⟩

/-! ### Error messages -/

/-- A nested `printfmt` that prints the messages of `%e`. -/
def PrintsErrors (printfmt : List UInt8 → σ → VaList → Exec (σ × VaList)) (putch : Putch σ) :
    Prop :=
  ∀ err d, putError printfmt err d = (do
    let out ← errorText err
    putAll putch out d)

theorem errorString_noNul {i : Nat} {p : List UInt8} (entry : errorString[i]? = some (some p)) :
    0 ∉ p ∧ p.length < 32 := by
  have each : ∀ q ∈ errorString, ∀ p, q = some p → 0 ∉ p ∧ p.length < 32 := by decide
  exact each _ (List.mem_of_getElem? entry) p rfl

theorem charText_plain : charText false = charInt := by
  funext b
  simp [charText]

/-- A string that `%s` prints without width or precision. -/
theorem stringText_plain (p : List UInt8) (noNul : 0 ∉ p) (short : p.length < 2147483648) :
    stringText {} (p ++ [0]) = .ok (p.map charInt) := by
  have whole : (p ++ [0]).takeWhile (· != 0) = p := takeWhile_nul noNul []
  -- with no width the countdown goes below 0 and nothing is padded
  have done : (countDown p.length (-1)).toNat = 0 := by
    rw [countDown_of_range _ _ (by omega) (by omega)]
    omega
  simp [stringText, readable, shown, whole, charText_plain, done]

theorem vprintfmtNested_succ (putch : Putch σ) (depth : Nat) (fmt : List UInt8)
    (noNul : 0 ∉ fmt) (d : σ) (ap : VaList) :
    vprintfmtNested putch (depth + 1) (fmt ++ [0]) d ap =
      runDirectives (vprintfmtNested putch depth) putch (directives fmt) d ap :=
  vprintfmtLoop_directives _ putch fmt [] _ d ap noNul (by simp)

theorem nested_number (putch : Putch σ) (v : BitVec 32) (d : σ) :
    vprintfmtNested putch 1 (literal "error %d" ++ [0]) d [.word v] = (do
      let d ← putAll putch ((literal "error ").map charInt ++
        signedText (v.signExtend 64) .decimal {}) d
      pure (d, [])) := by
  -- the format that prints an unknown error
  have parsed : directives (literal "error %d") =
      (literal "error ").map .text ++ [.escape [] .decimal] := by decide +kernel
  rw [vprintfmtNested_succ putch 0 _ (by decide), parsed]
  simp [show literal "error " = [101, 114, 114, 111, 114, 32] by decide, runDirectives,
    Directive.run, applyFlags, convert, getint, vaInt, putSigned_text, putAll_cons, charInt]

theorem nested_message (putch : Putch σ) (p : List UInt8) (noNul : 0 ∉ p)
    (short : p.length < 2147483648) (d : σ) :
    vprintfmtNested putch 1 (literal "%s" ++ [0]) d [.ptr 1 (p ++ [0])] = (do
      let d ← putAll putch (p.map charInt) d
      pure (d, [])) := by
  have parsed : directives (literal "%s") = [.escape [] .string] := by decide +kernel
  have text := fun d => putString_text {} (some (p ++ [0])) _ (stringText_plain p noNul short) putch d
  rw [vprintfmtNested_succ putch 0 _ (by decide), parsed]
  simp [runDirectives, Directive.run, applyFlags, convert, vaString, text]

theorem printsErrors_nested (putch : Putch σ) : PrintsErrors (vprintfmtNested putch 1) putch := by
  intro err d
  unfold putError errorText
  dsimp only
  -- the error is negated as an `int`; only its result matters
  generalize (if err < 0 then int32 (-err) else err) = code
  by_cases large : code ≥ MAXERROR
  · simp [large, nested_number]
  · cases entry : readAt errorString code with
    | error e => simp [large]
    | ok p =>
      cases p with
      | none => simp [large, nested_number]
      | some p =>
        obtain ⟨noNul, short⟩ := errorString_noNul (readAt_eq_ok_iff.mp entry).2
        have message := nested_message putch p noNul (by omega) d
        simp only [large, if_false, Exec.ok_bind, message]
        simp

/-! ### From directives to text -/

/-- A conversion passes its text to the callback. -/
theorem convert_text {printfmt : List UInt8 → σ → VaList → Exec (σ × VaList)} {putch : Putch σ}
    (nested : PrintsErrors printfmt putch) {flags : Flags} {ap rest : VaList} {c : Conversion}
    {out : List Int} (text : convertText flags ap c = .ok (out, rest)) (d : σ) :
    convert printfmt putch flags d ap c = (do
      let d ← putAll putch out d
      pure (d, rest)) := by
  cases c with
  | percent =>
    cases text
    simp [convert]
  | char =>
    obtain ⟨⟨v, ap'⟩, argument, result⟩ := Exec.bind_eq_ok.mp text
    cases result
    simp [convert, argument]
  | pointer =>
    obtain ⟨⟨v, ap'⟩, argument, result⟩ := Exec.bind_eq_ok.mp text
    cases result
    simp [convert, argument, printnum_text, putAll_cons]
  | error =>
    obtain ⟨⟨v, ap'⟩, argument, message⟩ := Exec.bind_eq_ok.mp text
    obtain ⟨out, found, result⟩ := Exec.bind_eq_ok.mp message
    cases result
    simp [convert, argument, nested v.toInt, found]
  | string =>
    obtain ⟨⟨p, ap'⟩, argument, message⟩ := Exec.bind_eq_ok.mp text
    obtain ⟨out, found, result⟩ := Exec.bind_eq_ok.mp message
    cases result
    simp [convert, argument, putString_text flags p _ found]
  | decimal | octal =>
    obtain ⟨⟨num, ap'⟩, argument, result⟩ := Exec.bind_eq_ok.mp text
    cases result
    simp [convert, argument, putSigned_text]
  | unsigned | hex =>
    obtain ⟨⟨num, ap'⟩, argument, result⟩ := Exec.bind_eq_ok.mp text
    cases result
    simp [convert, argument, printnum_text]

/-- A conversion without a text fails, also with a callback that never does. -/
theorem convert_fault {printfmt : List UInt8 → List Int → VaList → Exec (List Int × VaList)}
    (nested : PrintsErrors printfmt record) {flags : Flags} {ap : VaList} {c : Conversion}
    {e : Fault} (noText : convertText flags ap c = .error e) (written : List Int) :
    ∃ e', convert printfmt record flags written ap c = .error e' := by
  cases c with
  | percent => cases noText
  | char =>
    cases argument : vaInt ap with
    | error e => exact ⟨e, by simp [convert, argument]⟩
    | ok result => simp [convertText, argument] at noText
  | pointer =>
    cases argument : vaInt ap with
    | error e => exact ⟨e, by simp [convert, argument, record]⟩
    | ok result => simp [convertText, argument] at noText
  | error =>
    cases argument : vaInt ap with
    | error e => exact ⟨e, by simp [convert, argument]⟩
    | ok result =>
      cases message : errorText result.1.toInt with
      | error e => exact ⟨e, by simp [convert, argument, nested result.1.toInt, message]⟩
      | ok out => simp [convertText, argument, message] at noText
  | string =>
    cases argument : vaString ap with
    | error e => exact ⟨e, by simp [convert, argument]⟩
    | ok result =>
      cases message : stringText flags (result.1.getD (literal "(null)" ++ [0])) with
      | error e =>
        obtain ⟨e', fault⟩ := putString_fault flags result.1 e message written
        exact ⟨e', by simp [convert, argument, fault]⟩
      | ok out => simp [convertText, argument, message] at noText
  | decimal | octal =>
    cases argument : getint ap flags.lflag with
    | error e => exact ⟨e, by simp [convert, argument]⟩
    | ok result => simp [convertText, argument] at noText
  | unsigned | hex =>
    cases argument : getuint ap flags.lflag with
    | error e => exact ⟨e, by simp [convert, argument]⟩
    | ok result => simp [convertText, argument] at noText

theorem Directive.run_text {printfmt : List UInt8 → σ → VaList → Exec (σ × VaList)}
    {putch : Putch σ} (nested : PrintsErrors printfmt putch) (directive : Directive)
    {ap rest : VaList} {out : List Int} (text : directive.textOf ap = .ok (out, rest)) (d : σ) :
    directive.run printfmt putch d ap = (do
      let d ← putAll putch out d
      pure (d, rest)) := by
  cases directive with
  | text b =>
    cases text
    simp [run]
  | escape s c =>
    obtain ⟨⟨flags, ap'⟩, applied, text⟩ := Exec.bind_eq_ok.mp text
    simp [run, applied, convert_text nested text]
  | stray s | cut s =>
    obtain ⟨⟨flags, ap'⟩, applied, result⟩ := Exec.bind_eq_ok.mp text
    cases result
    simp [run, applied]

theorem Directive.run_fault
    {printfmt : List UInt8 → List Int → VaList → Exec (List Int × VaList)}
    (nested : PrintsErrors printfmt record) (directive : Directive) {ap : VaList} {e : Fault}
    (noText : directive.textOf ap = .error e) (written : List Int) :
    ∃ e', directive.run printfmt record written ap = .error e' := by
  cases directive with
  | text b => cases noText
  | escape s c =>
    cases applied : applyFlags s {} ap with
    | error e => exact ⟨e, by simp [run, applied]⟩
    | ok result =>
      obtain ⟨e', fault⟩ := convert_fault nested (by simpa [textOf, applied] using noText) written
      exact ⟨e', by simp [run, applied, fault]⟩
  | stray s | cut s =>
    cases applied : applyFlags s {} ap with
    | error e => exact ⟨e, by simp [run, applied]⟩
    | ok result => simp [textOf, applied] at noText

theorem formatText_cons {directive : Directive} {ds : List Directive} {ap rest : VaList}
    {out : List Int} (text : formatText (directive :: ds) ap = .ok (out, rest)) :
    ∃ first ap' more, directive.textOf ap = .ok (first, ap') ∧
      formatText ds ap' = .ok (more, rest) ∧ out = first ++ more := by
  obtain ⟨⟨first, ap'⟩, head, tail⟩ := Exec.bind_eq_ok.mp text
  obtain ⟨⟨more, ap''⟩, later, result⟩ := Exec.bind_eq_ok.mp tail
  cases result
  exact ⟨first, ap', more, head, later, rfl⟩

theorem runDirectives_text {printfmt : List UInt8 → σ → VaList → Exec (σ × VaList)}
    {putch : Putch σ} (nested : PrintsErrors printfmt putch) (ds : List Directive)
    {ap rest : VaList} {out : List Int} (text : formatText ds ap = .ok (out, rest)) (d : σ) :
    runDirectives printfmt putch ds d ap = (do
      let d ← putAll putch out d
      pure (d, rest)) := by
  induction ds generalizing ap out d with
  | nil =>
    cases text
    rfl
  | cons directive ds ih =>
    obtain ⟨first, ap', more, head, later, rfl⟩ := formatText_cons text
    simp [runDirectives, Directive.run_text nested directive head, ih later, putAll_append]

theorem runDirectives_fault
    {printfmt : List UInt8 → List Int → VaList → Exec (List Int × VaList)}
    (nested : PrintsErrors printfmt record) (ds : List Directive) {ap : VaList} {e : Fault}
    (noText : formatText ds ap = .error e) (written : List Int) :
    ∃ e', runDirectives printfmt record ds written ap = .error e' := by
  induction ds generalizing ap written e with
  | nil => cases noText
  | cons directive ds ih =>
    cases head : directive.textOf ap with
    | error e =>
      obtain ⟨e', fault⟩ := Directive.run_fault nested directive head written
      exact ⟨e', by simp [runDirectives, fault]⟩
    | ok result =>
      cases tail : formatText ds result.2 with
      | error e =>
        obtain ⟨e', fault⟩ := ih tail (written ++ result.1)
        exact ⟨e', by simp [runDirectives, Directive.run_text nested directive head, fault]⟩
      | ok more => simp [formatText, head, tail] at noText

/-! ### `vprintfmt` prints the text of its format -/

theorem vprintfmt_directives (putch : Putch σ) {fmt : List UInt8} (noNul : 0 ∉ fmt) (d : σ)
    (ap : VaList) : vprintfmt putch d (fmt ++ [0]) ap =
      runDirectives (vprintfmtNested putch 1) putch (directives fmt) d ap :=
  vprintfmtNested_succ putch 1 fmt noNul d ap

/-- Whatever the callback, it is given the text of the format. -/
theorem vprintfmt_text (putch : Putch σ) {fmt : List UInt8} (noNul : 0 ∉ fmt) (d : σ)
    {ap rest : VaList} {out : List Int} (text : formatText (directives fmt) ap = .ok (out, rest)) :
    vprintfmt putch d (fmt ++ [0]) ap = (do
      let d ← putAll putch out d
      pure (d, rest)) := by
  rw [vprintfmt_directives putch noNul]
  exact runDirectives_text (printsErrors_nested putch) _ text d

/-- What `vprintfmt` passes to its callback, and the arguments that it leaves. -/
def emitted (fmt : List UInt8) (ap : VaList) : Exec (List Int × VaList) :=
  vprintfmt record [] (fmt ++ [0]) ap

theorem emitted_iff {fmt : List UInt8} (noNul : 0 ∉ fmt) (ap rest : VaList) (out : List Int) :
    emitted fmt ap = .ok (out, rest) ↔ formatText (directives fmt) ap = .ok (out, rest) := by
  cases text : formatText (directives fmt) ap with
  | error e =>
    -- without a text `vprintfmt` has no result either
    obtain ⟨e', fault⟩ := runDirectives_fault (printsErrors_nested record) _ text []
    rw [emitted, vprintfmt_directives record noNul, fault]
    simp
  | ok result =>
    rw [emitted, vprintfmt_text record noNul [] text]
    simp

end Jos
