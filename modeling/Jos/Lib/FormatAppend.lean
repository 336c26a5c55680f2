import Jos.Lib.FormatText

/-!
# Formats one after the other

A format that does not end inside an escape prints the same text whatever follows it, takes
the same arguments, and leaves nothing behind that the rest of the format could see.
-/
namespace Jos

open Library

/-- Every escape of the format reaches the character that ends it. -/
def Closed (fmt : CString) : Prop := ∀ s, .cut s ∉ directives fmt.bytes

/-! ### Arguments beyond those that are taken -/

theorem vaInt_frame {ap rest : VaList} {v : BitVec 32} (taken : vaInt ap = .ok (v, rest))
    (more : VaList) : vaInt (ap ++ more) = .ok (v, rest ++ more) := by
  rcases ap with _ | ⟨a, ap⟩
  · cases taken
  · cases a <;> simp_all [vaInt]

theorem vaLongLong_frame {ap rest : VaList} {v : BitVec 64}
    (taken : vaLongLong ap = .ok (v, rest)) (more : VaList) :
    vaLongLong (ap ++ more) = .ok (v, rest ++ more) := by
  rcases ap with _ | ⟨a, ap⟩
  · cases taken
  · cases a <;> simp_all [vaLongLong]

theorem vaString_frame {ap rest : VaList} {p : Option (List UInt8)}
    (taken : vaString ap = .ok (p, rest)) (more : VaList) :
    vaString (ap ++ more) = .ok (p, rest ++ more) := by
  rcases ap with _ | ⟨a, ap⟩
  · cases taken
  · cases a <;> simp_all [vaString]
    grind

theorem getuint_frame {ap rest : VaList} {lflag : Nat} {num : BitVec 64}
    (taken : getuint ap lflag = .ok (num, rest)) (more : VaList) :
    getuint (ap ++ more) lflag = .ok (num, rest ++ more) := by
  unfold getuint at *
  split at taken
  · next long => rw [if_pos long, vaLongLong_frame taken]
  · next short =>
    obtain ⟨⟨v, ap'⟩, argument, result⟩ := Exec.bind_eq_ok.mp taken
    cases result
    simp [short, vaInt_frame argument]

theorem getint_frame {ap rest : VaList} {lflag : Nat} {num : BitVec 64}
    (taken : getint ap lflag = .ok (num, rest)) (more : VaList) :
    getint (ap ++ more) lflag = .ok (num, rest ++ more) := by
  rw [getint_eq] at taken ⊢
  cases argument : getuint ap lflag with
  | error e =>
    rw [argument] at taken
    cases taken
  | ok r =>
    rw [argument] at taken
    cases taken
    rw [getuint_frame argument]
    rfl

theorem applyFlags_frame {s : List UInt8} {flags flags' : Flags} {ap rest : VaList}
    (taken : applyFlags s flags ap = .ok (flags', rest)) (more : VaList) :
    applyFlags s flags (ap ++ more) = .ok (flags', rest ++ more) := by
  induction s, flags, ap using applyFlags.induct with
  | case1 flags ap =>
    rw [applyFlags] at *
    cases taken
    rfl
  | case4 b s flags ap label precision ih =>
    rw [applyFlags] at *
    simp only [label] at *
    exact ih taken
  | case5 b s flags ap label ih =>
    rw [applyFlags] at *
    simp only [label] at *
    obtain ⟨⟨v, ap'⟩, argument, later⟩ := Exec.bind_eq_ok.mp taken
    rw [vaInt_frame argument, Exec.ok_bind]
    exact ih v ap' later
  | case9 b s flags ap _ _ _ _ _ _ _ ih =>
    rw [applyFlags] at *
    cases label : switchLabel b <;> simp_all
  | _ b s flags ap label ih =>
    rw [applyFlags] at *
    simp only [label] at *
    exact ih taken

theorem convertText_frame {flags : Flags} {ap rest : VaList} {c : Conversion} {out : List Int}
    (text : convertText flags ap c = .ok (out, rest)) (more : VaList) :
    convertText flags (ap ++ more) c = .ok (out, rest ++ more) := by
  cases c with
  | percent =>
    cases text
    rfl
  | char | pointer =>
    obtain ⟨⟨v, ap'⟩, argument, result⟩ := Exec.bind_eq_ok.mp text
    cases result
    simp [convertText, vaInt_frame argument]
  | error =>
    obtain ⟨⟨v, ap'⟩, argument, message⟩ := Exec.bind_eq_ok.mp text
    obtain ⟨out, found, result⟩ := Exec.bind_eq_ok.mp message
    cases result
    simp [convertText, vaInt_frame argument, found]
  | string =>
    obtain ⟨⟨p, ap'⟩, argument, message⟩ := Exec.bind_eq_ok.mp text
    obtain ⟨out, found, result⟩ := Exec.bind_eq_ok.mp message
    cases result
    simp [convertText, vaString_frame argument, found]
  | decimal | octal =>
    obtain ⟨⟨num, ap'⟩, argument, result⟩ := Exec.bind_eq_ok.mp text
    cases result
    simp [convertText, getint_frame argument]
  | unsigned | hex =>
    obtain ⟨⟨num, ap'⟩, argument, result⟩ := Exec.bind_eq_ok.mp text
    cases result
    simp [convertText, getuint_frame argument]

theorem formatText_frame (ds : List Directive) {ap rest : VaList} {out : List Int}
    (text : formatText ds ap = .ok (out, rest)) (more : VaList) :
    formatText ds (ap ++ more) = .ok (out, rest ++ more) := by
  induction ds generalizing ap out with
  | nil =>
    cases text
    rfl
  | cons directive ds ih =>
    obtain ⟨first, ap', second, head, later, rfl⟩ := formatText_cons text
    -- the first directive leaves the same arguments, with `more` after them
    have head' : directive.textOf (ap ++ more) = .ok (first, ap' ++ more) := by
      cases directive with
      | text b =>
        cases head
        rfl
      | escape s c =>
        obtain ⟨⟨flags, ap⟩, applied, text⟩ := Exec.bind_eq_ok.mp head
        simp [Directive.textOf, applyFlags_frame applied, convertText_frame text]
      | stray s | cut s =>
        obtain ⟨⟨flags, ap⟩, applied, result⟩ := Exec.bind_eq_ok.mp head
        cases result
        simp [Directive.textOf, applyFlags_frame applied]
    simp [formatText, head', ih later]

theorem formatText_append (ds es : List Directive) (ap : VaList) :
    formatText (ds ++ es) ap = (do
      let (out, ap) ← formatText ds ap
      let (more, ap) ← formatText es ap
      pure (out ++ more, ap)) := by
  induction ds generalizing ap with
  | nil =>
    simp [formatText]
  | cons directive ds ih =>
    simp [formatText, ih]

/-! ### Concatenation -/

theorem runDirectives_append {σ : Type}
    (printfmt : List UInt8 → σ → VaList → Exec (σ × VaList)) (putch : Putch σ)
    (ds es : List Directive) (d : σ) (ap : VaList) :
    runDirectives printfmt putch (ds ++ es) d ap = (do
      let (d, ap) ← runDirectives printfmt putch ds d ap
      runDirectives printfmt putch es d ap) := by
  induction ds generalizing d ap with
  | nil => rfl
  | cons directive ds ih => simp [runDirectives, ih]

/-- A format that does not end inside an escape is printed as if it stood alone, and so is
what follows it, with the arguments that the first part leaves. -/
theorem vprintfmt_append (f1 f2 : CString) (a1 a2 : VaList) (out1 : List Int)
    (closed : Closed f1) (consumed : emitted f1.bytes a1 = .ok (out1, [])) :
    (∀ out rest, emitted (f1.bytes ++ f2.bytes) (a1 ++ a2) = .ok (out, rest) ↔
      ∃ out2, emitted f2.bytes a2 = .ok (out2, rest) ∧ out = out1 ++ out2) ∧
    (∀ (σ : Type) (putch : Putch σ) (d : σ),
      vprintfmt putch d (f1.bytes ++ f2.object) (a1 ++ a2) = (do
        let (d, _) ← vprintfmt putch d f1.object a1
        vprintfmt putch d f2.object a2)) := by
  have noNul : 0 ∉ f1.bytes ++ f2.bytes := by
    rw [List.mem_append]
    rintro (left | right)
    · exact f1.noNul left
    · exact f2.noNul right
  have text := (emitted_iff f1.noNul a1 [] out1).mp consumed
  -- the first part takes all of `a1` and none of `a2`
  have framed : formatText (directives f1.bytes) (a1 ++ a2) = .ok (out1, a2) :=
    formatText_frame _ text a2
  have parsed := directives_append f1.bytes f2.bytes closed
  constructor
  · intro out rest
    rw [emitted_iff noNul, parsed, formatText_append, framed]
    simp only [emitted_iff f2.noNul, Exec.ok_bind, Exec.bind_eq_ok, Prod.exists]
    constructor
    · rintro ⟨out2, ap, text2, result⟩
      cases result
      exact ⟨out2, text2, rfl⟩
    · rintro ⟨out2, text2, rfl⟩
      exact ⟨out2, rest, text2, rfl⟩
  · intro σ putch d
    have nested := printsErrors_nested putch
    -- both sides are runs over the directives, on any callback
    have whole := vprintfmt_directives putch noNul d (a1 ++ a2)
    have first := vprintfmt_directives putch f1.noNul d a1
    have second := fun d => vprintfmt_directives putch f2.noNul d a2
    rw [parsed, runDirectives_append, runDirectives_text nested _ framed,
      List.append_assoc] at whole
    rw [runDirectives_text nested _ text] at first
    rw [CString.object, CString.object, whole, first]
    simp [second]

theorem vprintfmt_append_percents :
    let f1 : CString := ⟨literal "%3d,", by decide, by decide⟩
    let f2 : CString := ⟨literal "%d", by decide, by decide⟩
    (∀ out rest, emitted (f1.bytes ++ f2.bytes) ([.word 7] ++ [.word 8]) = .ok (out, rest) ↔
      ∃ out2, emitted f2.bytes [.word 8] = .ok (out2, rest) ∧ out = [32, 32, 55, 44] ++ out2) ∧
    (∀ (σ : Type) (putch : Putch σ) (d : σ),
      vprintfmt putch d (f1.bytes ++ f2.object) ([.word 7] ++ [.word 8]) = (do
        let (d, _) ← vprintfmt putch d f1.object [.word 7]
        vprintfmt putch d f2.object [.word 8])) :=
  vprintfmt_append _ _ [.word 7] [.word 8] [32, 32, 55, 44]
    (by
      intro s
      rw [show directives (literal "%3d,") = [.escape [51] .decimal, .text 44] by
        decide +kernel]
      simp)
    (by decide +kernel)

end Jos
