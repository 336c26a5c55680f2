import Jos.Lib.Snprintf

/-!
# Formats that vprintfmt does not know

An escape that is cut off or that an unknown character ends sends the format pointer back, but
never before the `%` that it began with: the bytes of the escape come again as text. So every
format is read within its bytes, and one without a conversion is printed as it stands.
-/
namespace Jos

open Library

variable {σ : Type}

/-- No escape of the format is recognised. -/
def Unrecognised (fmt : List UInt8) : Prop := ∀ s c, .escape s c ∉ directives fmt

section Text

variable {ap rest : VaList} {out : List Int}

/-- Whatever its flags do with the arguments, such an escape prints its `%`. -/
theorem textOf_percent {directive : Directive} {s : List UInt8} {first : List Int}
    (unknown : directive = .stray s ∨ directive = .cut s)
    (text : directive.textOf ap = .ok (first, rest)) : first = [ord '%'] := by
  rcases unknown with rfl | rfl
  · obtain ⟨_, _, result⟩ := Exec.bind_eq_ok.mp text
    cases result
    rfl
  · obtain ⟨_, _, result⟩ := Exec.bind_eq_ok.mp text
    cases result
    rfl

theorem formatText_verbatim (fmt : List UInt8) (unrecognised : Unrecognised fmt)
    (text : formatText (directives fmt) ap = .ok (out, rest)) :
    out = fmt.map fun b => (b.toNat : Int) := by
  induction fmt using format_induction generalizing ap out with
  | nil =>
    rw [directives_nil] at text
    cases text
    rfl
  | text b fmt plain ih =>
    rw [directives_text plain] at text
    obtain ⟨first, ap', more, head, later, rfl⟩ := formatText_cons text
    cases head
    rw [ih (fun s c member => unrecognised s c (by simp [directives_text plain, member])) later]
    rfl
  | cut s all ih =>
    rw [directives_cut all] at text
    obtain ⟨first, ap', more, head, later, rfl⟩ := formatText_cons text
    rw [textOf_percent (.inr rfl) head,
      ih (fun s c member => unrecognised s c (by simp [directives_cut all, member])) later]
    rfl
  | escape s c k rest all ended ih =>
    -- excluded: this is a conversion
    exact absurd (by simp [directives_escape all ended]) (unrecognised s k)
  | stray s c rest all ended unknown ih =>
    rw [directives_stray all ended unknown] at text
    obtain ⟨first, ap', more, head, later, rfl⟩ := formatText_cons text
    rw [textOf_percent (.inl rfl) head, ih (fun s c member => unrecognised s c
      (by simp [directives_stray all ended unknown, member])) later]
    rfl

end Text

/-- With arguments that match, `vprintfmt` reads every format inside its object and comes to an
end, on every callback; what it does not recognise it prints verbatim. -/
theorem vprintfmt_verbatim (fmt : CString) (ap : VaList) (matching : Matches fmt ap) :
    ∃ out rest,
      (∀ (σ : Type) (putch : Putch σ) (d : σ), vprintfmt putch d fmt.object ap = (do
        let d ← putAll putch out d
        pure (d, rest))) ∧
      (Unrecognised fmt.bytes → out = fmt.bytes.map fun b => (b.toNat : Int)) := by
  obtain ⟨out, rest, text⟩ := formatText_meets matching
  refine ⟨out, rest, ?_, ?_⟩
  · intro σ putch d
    exact vprintfmt_text putch fmt.noNul d text
  · intro unrecognised
    exact formatText_verbatim fmt.bytes unrecognised text

/-- A lone `%`, an unknown conversion and an escape that the NUL cuts off. -/
def malformed : CString := ⟨literal "%y% %0*.5l", by decide, by decide⟩

theorem malformed_directives : directives malformed.bytes =
    [.stray [], .text 121, .stray [], .text 32,
      .cut [48, 42, 46, 53, 108], .text 48, .text 42, .text 46, .text 53, .text 108] := by
  decide +kernel

theorem vprintfmt_verbatim_malformed :
    ∃ out rest,
      (∀ (σ : Type) (putch : Putch σ) (d : σ), vprintfmt putch d malformed.object [.word 7] = (do
        let d ← putAll putch out d
        pure (d, rest))) ∧
      (Unrecognised malformed.bytes → out = malformed.bytes.map fun b => (b.toNat : Int)) :=
  vprintfmt_verbatim malformed [.word 7] (by
    rw [Matches, malformed_directives]
    exact ⟨trivial, trivial⟩)

end Jos
