import Jos.Kern.Printf
import Jos.Lib.Snprintf

/-!
# What cprintf returns

`putch` counts with `*cnt++`, which moves its own pointer, so `cprintf` returns 0 whatever it
has printed, where `vsnprintf` counts. The two agree on the formats that print nothing.
-/
namespace Jos

open Library

/-! ### Formats that print nothing -/

/-- Every directive is a `%s` without a field, of an empty string or up to the precision 0. -/
def Silent : List Directive → VaList → Prop
  | [], _ => True
  | .escape s .string :: rest, ap => ∃ flags ap₁ p ap₂,
      applyFlags s {} ap = .ok (flags, ap₁) ∧ vaString ap₁ = .ok (p, ap₂) ∧ flags.width ≤ 0 ∧
        (flags.precision = 0 ∨ (p.getD (literal "(null)" ++ [0])).head? = some 0) ∧ Silent rest ap₂
  | _ :: _, _ => False

/-- The value of an `int`. -/
abbrev IsInt (x : Int) : Prop := int32 x = x

theorem isInt_zero : IsInt 0 := by decide

theorem isInt_minus_one : IsInt (-1) := by decide

theorem isInt_int32 (x : Int) : IsInt (int32 x) := int32_int32 x

theorem isInt_toInt (v : BitVec 32) : IsInt v.toInt := by
  have low := v.le_toInt
  have high := v.toInt_lt
  exact int32_of_range (by omega) (by omega)

theorem isInt_precisionOf {precision : Int} (int : IsInt precision) (s : List UInt8) :
    IsInt (precisionOf precision s) := by
  induction s generalizing precision with
  | nil => exact int
  | cons b s ih => exact ih (isInt_int32 _)

/-- The width and the precision of an escape are `int`s. -/
structure IntFlags (flags : Flags) : Prop where
  width : IsInt flags.width
  precision : IsInt flags.precision

theorem IntFlags.processPrecision {flags : Flags} (int : IntFlags flags) :
    IntFlags flags.processPrecision := by
  unfold Flags.processPrecision
  split
  · exact ⟨int.precision, isInt_minus_one⟩
  · exact int

theorem IntFlags.dot {flags : Flags} (int : IntFlags flags) : IntFlags flags.dot := by
  unfold Flags.dot
  split
  · exact ⟨isInt_zero, int.precision⟩
  · exact int

theorem applyFlags_int {s : List UInt8} {flags flags' : Flags} {ap rest : VaList}
    (int : IntFlags flags) (applied : applyFlags s flags ap = .ok (flags', rest)) :
    IntFlags flags' := by
  induction s, flags, ap using applyFlags.induct with
  | case1 flags ap =>
    rw [applyFlags] at applied
    cases applied
    exact int
  | case4 b s flags ap label precision ih =>
    rw [applyFlags] at applied
    simp only [label] at applied
    have read : IsInt precision := isInt_precisionOf isInt_zero _
    exact ih (IntFlags.processPrecision ⟨int.width, read⟩) applied
  | case5 b s flags ap label ih =>
    rw [applyFlags] at applied
    simp only [label] at applied
    obtain ⟨⟨v, ap'⟩, -, later⟩ := Exec.bind_eq_ok.mp applied
    exact ih v ap' (IntFlags.processPrecision ⟨int.width, isInt_toInt v⟩) later
  | case6 b s flags ap label ih =>
    rw [applyFlags] at applied
    simp only [label] at applied
    exact ih int.dot applied
  | case9 b s flags ap _ _ _ _ _ _ _ ih =>
    rw [applyFlags] at applied
    cases label : switchLabel b <;> simp_all
  | _ b s flags ap label ih =>
    rw [applyFlags] at applied
    simp only [label] at applied
    exact ih ⟨int.width, int.precision⟩ applied

/-- No byte of a string is shown if it is empty, or if none may be. -/
theorem shown_eq_nil_iff {precision : Int} {p : List UInt8} (printable : readable precision p) :
    shown precision p = [] ↔ precision = 0 ∨ p.head? = some 0 := by
  by_cases none : precision = 0
  · simp [none, shown_zero]
  cases p with
  | nil =>
    rcases printable with member | ⟨low, high⟩
    · cases member
    · simp at high
      omega
  | cons b p =>
    by_cases nul : b = 0
    · simp [nul, shown_nul]
    · simp [shown_cons precision nul p none, none, nul]

theorem stringText_eq_nil_iff {flags : Flags} (int : IsInt flags.width) {p : List UInt8}
    {out : List Int} (text : stringText flags p = .ok out) :
    out = [] ↔ flags.width ≤ 0 ∧ (flags.precision = 0 ∨ p.head? = some 0) := by
  unfold stringText at text
  by_cases printable : readable flags.precision p
  · rw [if_pos printable] at text
    rw [← shown_eq_nil_iff printable]
    dsimp only at text
    split at text
    · next padded =>
      cases text
      rw [List.append_eq_nil_iff, List.append_eq_nil_iff, List.map_eq_nil_iff]
      constructor
      · rintro ⟨⟨padding, nothing⟩, -⟩
        -- with nothing to show, the padding is the whole width
        have length : (min (p.takeWhile (· != 0)).length (flags.precision % 4294967296).toNat) = 0 := by
          rcases (shown_eq_nil_iff printable).mp nothing with none | empty
          · simp [none]
          · obtain ⟨rest, rfl⟩ : ∃ rest, p = 0 :: rest := by
              cases p <;> simp_all
            simp
        rw [length, Int.natCast_zero, Int.sub_zero, int, List.replicate_eq_nil_iff] at padding
        omega
      · rintro ⟨narrow, -⟩
        omega
    · next unpadded =>
      cases text
      rw [List.append_eq_nil_iff, List.map_eq_nil_iff, List.replicate_eq_nil_iff]
      constructor
      · rintro ⟨nothing, padding⟩
        rw [nothing, List.length_nil, countDown] at padding
        exact ⟨by omega, nothing⟩
      · rintro ⟨narrow, nothing⟩
        rw [nothing, List.length_nil, countDown]
        exact ⟨rfl, by omega⟩
  · rw [if_neg printable] at text
    cases text

theorem numberText_ne_nil (base : Base) (num : Nat) (width padc : Int) :
    numberText base num width padc ≠ [] := by
  simp [numberText, numeral_ne_nil]

theorem signedText_ne_nil (num : BitVec 64) (base : Base) (flags : Flags) :
    signedText num base flags ≠ [] := by
  unfold signedText
  split
  · exact List.cons_ne_nil _ _
  · exact numberText_ne_nil base _ _ _

theorem errorText_ne_nil {err : Int} {out : List Int} (text : errorText err = .ok out) :
    out ≠ [] := by
  have message : literal "error " ≠ [] := by decide
  unfold errorText at text
  dsimp only at text
  -- the error is negated as an `int`; only its result matters
  generalize (if err < 0 then int32 (-err) else err) = code at text
  split at text
  · cases text
    simp [message]
  · obtain ⟨entry, found, text⟩ := Exec.bind_eq_ok.mp text
    cases entry with
    | none =>
      cases text
      simp [message]
    | some p =>
      cases text
      -- no message of the table is empty
      have each : ∀ q ∈ errorString, ∀ p, q = some p → p ≠ [] := by decide
      have nonempty := each _ (List.mem_of_getElem? (readAt_eq_ok_iff.mp found).2) p rfl
      simpa using nonempty

/-- Only `%s` can print nothing. -/
theorem convertText_ne_nil {flags : Flags} {ap rest : VaList} {c : Conversion} {out : List Int}
    (text : convertText flags ap c = .ok (out, rest)) (other : c ≠ .string) : out ≠ [] := by
  cases c with
  | string => exact absurd rfl other
  | percent =>
    cases text
    exact List.cons_ne_nil _ _
  | char =>
    obtain ⟨_, _, result⟩ := Exec.bind_eq_ok.mp text
    cases result
    exact List.cons_ne_nil _ _
  | pointer =>
    obtain ⟨_, _, result⟩ := Exec.bind_eq_ok.mp text
    cases result
    exact List.cons_ne_nil _ _
  | error =>
    obtain ⟨_, _, message⟩ := Exec.bind_eq_ok.mp text
    obtain ⟨out, found, result⟩ := Exec.bind_eq_ok.mp message
    cases result
    exact errorText_ne_nil found
  | decimal | octal =>
    obtain ⟨_, _, result⟩ := Exec.bind_eq_ok.mp text
    cases result
    exact signedText_ne_nil _ _ flags
  | unsigned | hex =>
    obtain ⟨_, _, result⟩ := Exec.bind_eq_ok.mp text
    cases result
    exact numberText_ne_nil _ _ _ _

/-- A format prints nothing exactly if its directives are silent. -/
theorem formatText_eq_nil_iff {ds : List Directive} {ap rest : VaList} {out : List Int}
    (text : formatText ds ap = .ok (out, rest)) : out = [] ↔ Silent ds ap := by
  induction ds generalizing ap out with
  | nil =>
    cases text
    simp [Silent]
  | cons directive ds ih =>
    obtain ⟨first, ap', more, head, later, rfl⟩ := formatText_cons text
    rw [List.append_eq_nil_iff, ih later]
    cases directive with
    | text b =>
      cases head
      simp [Silent]
    | stray s | cut s =>
      obtain ⟨_, _, result⟩ := Exec.bind_eq_ok.mp head
      cases result
      simp [Silent]
    | escape s c =>
      obtain ⟨⟨flags, ap₁⟩, applied, conversion⟩ := Exec.bind_eq_ok.mp head
      by_cases string : c = .string
      · subst string
        obtain ⟨⟨p, ap₂⟩, argument, shown⟩ := Exec.bind_eq_ok.mp conversion
        obtain ⟨body, printed, result⟩ := Exec.bind_eq_ok.mp shown
        cases result
        have int := applyFlags_int ⟨isInt_minus_one, isInt_minus_one⟩ applied
        rw [stringText_eq_nil_iff int.width printed]
        constructor
        · rintro ⟨⟨narrow, nothing⟩, silent⟩
          exact ⟨flags, ap₁, p, _, applied, argument, narrow, nothing, silent⟩
        · rintro ⟨flags', ap₁', p', ap₂', applied', argument', narrow, nothing, silent⟩
          cases applied.symm.trans applied'
          cases argument.symm.trans argument'
          exact ⟨⟨narrow, nothing⟩, silent⟩
      · have printed := convertText_ne_nil conversion string
        cases c <;> simp_all [Silent]

/-! ### The count -/

/-- The callback of `cprintf` is `cputchar` and nothing else. -/
theorem putAll_putch_eq (out : List Int) (con : Console) (cnt : Int) :
    putAll putch out (con, cnt) = (fun con => (con, cnt)) <$> putAll cputchar out con := by
  induction out generalizing con with
  | nil => rfl
  | cons c out ih =>
    rw [putAll_cons, putAll_cons, putch]
    cases cputchar c con with
    | error e => rfl
    | ok con => exact ih con

/-- `vcprintf` and `cprintf` print the characters `out` with `cputchar` and return their number,
and so does `vsnprintf` for every buffer. -/
structure CountsPrinted (fmt : CString) (ap : VaList) (out : List Int) (con : Console) : Prop where
  printed : ∃ con', putAll cputchar out con = .ok con' ∧
    vcprintf fmt.object ap con = .ok (out.length, con') ∧
      cprintf fmt.object ap con = .ok (out.length, con')
  counted : ∀ object n, 1 ≤ n → n ≤ object.length → ∃ object',
    vsnprintf (some object) n fmt.object ap = .ok (out.length, some object')

theorem vcprintf_returns_zero (fmt : CString) {ap rest : VaList} {out : List Int}
    (text : formatText (directives fmt.bytes) ap = .ok (out, rest)) {con : Console}
    (inside : con.crtPos.toNat < CRT_SIZE) :
    ∃ con', putAll cputchar out con = .ok con' ∧ vcprintf fmt.object ap con = .ok (0, con') := by
  obtain ⟨con', printed, -⟩ := putAll_putch out (shows_screen inside) 0
  have counted : cprintf fmt.object ap con = .ok (0, con') := by
    rw [CString.object, cprintf_text fmt.noNul text, printed]
    rfl
  refine ⟨con', ?_, counted⟩
  rw [putAll_putch_eq] at printed
  cases reached : putAll cputchar out con with
  | error e =>
    rw [reached] at printed
    cases printed
  | ok con₁ =>
    rw [reached] at printed
    cases printed
    rfl

/-- `cprintf` returns what it has printed, as `vsnprintf` does, exactly if that is nothing. -/
theorem countsPrinted_iff (fmt : CString) {ap rest : VaList} {out : List Int}
    (text : emitted fmt.bytes ap = .ok (out, rest)) {con : Console}
    (inside : con.crtPos.toNat < CRT_SIZE) :
    CountsPrinted fmt ap out con ↔ Silent (directives fmt.bytes) ap := by
  rw [emitted_iff fmt.noNul] at text
  obtain ⟨con', printed, returned⟩ := vcprintf_returns_zero fmt text inside
  rw [← formatText_eq_nil_iff text]
  constructor
  · rintro ⟨⟨con₁, -, counted, -⟩, -⟩
    rw [returned, Except.ok.injEq, Prod.mk.injEq] at counted
    exact List.length_eq_zero_iff.mp (by have := counted.1; omega)
  · rintro rfl
    refine ⟨⟨con', printed, returned, returned⟩, ?_⟩
    intro object n positive fits
    exact ⟨_, vsnprintf_text fmt.noNul text (by decide) object n positive fits⟩

/-- An empty string in a field of no width. -/
theorem countsPrinted_iff_empty :
    CountsPrinted ⟨literal "%s", by decide, by decide⟩ [.ptr 0x1000 [0]] []
      ⟨fun _ => 0, .cga, 0, []⟩ := by
  have parsed : directives (literal "%s") = [.escape [] .string] := by decide +kernel
  refine (@countsPrinted_iff _ _ [] _ (by decide +kernel) _ (by decide)).mpr ?_
  rw [parsed]
  exact ⟨{}, [.ptr 0x1000 [0]], some [0], [], by simp [applyFlags], rfl, by decide, .inr rfl,
    trivial⟩

/-- One letter: `vsnprintf` returns 1. -/
theorem countsPrinted_letter :
    let con : Console := ⟨fun _ => 0, .cga, 0, []⟩
    (∃ con', putAll cputchar [97] con = .ok con' ∧
      vcprintf (literal "a" ++ [0]) [] con = .ok (0, con')) ∧
    vsnprintf (some [0, 0]) 2 (literal "a" ++ [0]) [] = .ok (1, some [97, 0]) ∧
    ¬CountsPrinted ⟨literal "a", by decide, by decide⟩ [] [97] con := by
  have text : formatText (directives (literal "a")) [] = .ok ([97], []) :=
    formatText_literal (by decide) []
  obtain ⟨con', printed, returned⟩ := @vcprintf_returns_zero ⟨literal "a", by decide, by decide⟩
    _ _ _ text ⟨fun _ => 0, .cga, 0, []⟩ (by decide)
  refine ⟨⟨con', printed, returned⟩, by decide +kernel, ?_⟩
  rintro ⟨⟨con₁, -, counted, -⟩, -⟩
  rw [returned] at counted
  cases counted

end Jos
