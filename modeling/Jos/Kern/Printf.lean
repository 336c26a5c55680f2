import Jos.Kern.CgaTerminal
import Jos.Lib.FormatText

/-!
# kern/printf.c

`cprintf` shows the text of its format on the screen. A byte of the format is read as an
`unsigned char` and a byte of a `%s` string as a plain, signed `char`, and the display takes
what is above the low byte for an attribute.
-/
namespace Jos

open Library

/-- The console and what `cnt` points to; `*cnt++` moves the local pointer on and leaves the
count alone. -/
def putch : Putch (Console × Int) := fun ch (con, cnt) => do
  let con ← cputchar ch con
  pure (con, cnt)

def vcprintf (fmt : List UInt8) (ap : VaList) (con : Console) : Exec (Int × Console) := do
  let ((con, cnt), _) ← vprintfmt putch (con, 0) fmt ap
  pure (cnt, con)

def cprintf (fmt : List UInt8) (args : VaList) (con : Console) : Exec (Int × Console) :=
  vcprintf fmt args con

/-! ### The text of a format on the screen -/

/-- What the characters of a text do on a terminal. -/
def typedText (out : List Int) : List (Action Cell) := out.flatMap fun c => typed (.ofInt 32 c)

theorem putAll_putch {con : Console} {s : CrtScreen} (out : List Int) (shows : Shows con s)
    (cnt : Int) :
    ∃ con', putAll putch out (con, cnt) = .ok (con', cnt) ∧
      Shows con' ((typedText out).foldl (Screen.act blankCell) s) ∧ Kept con con' := by
  induction out generalizing con s with
  | nil => exact ⟨con, rfl, shows, Kept.refl con⟩
  | cons c out ih =>
    obtain ⟨con₁, printed, displayed⟩ := consPutc_shows (.ofInt 32 c) shows
    obtain ⟨con', rest, shows', kept⟩ := ih displayed.shows
    refine ⟨con', ?_, ?_, displayed.kept.trans kept⟩
    · rw [putAll_cons, putch, cputchar, printed]
      exact rest
    · rwa [typedText, List.flatMap_cons, List.foldl_append]

/-- `cprintf` is a function of the text of its format. -/
theorem cprintf_text {fmt : List UInt8} (noNul : 0 ∉ fmt) {ap rest : VaList} {out : List Int}
    (text : formatText (directives fmt) ap = .ok (out, rest)) (con : Console) :
    cprintf (fmt ++ [0]) ap con = (do
      let (con, cnt) ← putAll putch out (con, 0)
      pure (cnt, con)) := by
  rw [cprintf, vcprintf, vprintfmt_text putch noNul _ text, bind_assoc]
  rfl

theorem cprintf_shows {con : Console} {s : CrtScreen} {fmt : List UInt8} (noNul : 0 ∉ fmt)
    {ap rest : VaList} {out : List Int} (text : formatText (directives fmt) ap = .ok (out, rest))
    (shows : Shows con s) :
    ∃ con', cprintf (fmt ++ [0]) ap con = .ok (0, con') ∧
      Shows con' ((typedText out).foldl (Screen.act blankCell) s) ∧ Kept con con' := by
  obtain ⟨con', printed, shows', kept⟩ := putAll_putch out shows 0
  refine ⟨con', ?_, shows', kept⟩
  rw [cprintf_text noNul text, printed]
  rfl

/-! ### A text as the format and as an argument -/

theorem formatText_literal {s : List UInt8} (noPercent : '%'.toUInt8 ∉ s) (ap : VaList) :
    formatText (directives s) ap = .ok (s.map fun b => (b.toNat : Int), ap) := by
  induction s with
  | nil => simp [directives, formatText]
  | cons b s ih =>
    rw [List.mem_cons, not_or] at noPercent
    have later := ih noPercent.2
    rw [directives_text (Ne.symm noPercent.1)]
    simp [formatText, Directive.textOf, later]

theorem formatText_string (s : CString) {addr : BitVec 32} (nonnull : addr ≠ 0) :
    formatText (directives (literal "%s")) [.ptr addr s.object] =
      .ok (s.bytes.map charInt, []) := by
  have parsed : directives (literal "%s") = [.escape [] .string] := by decide +kernel
  have argument : vaString [.ptr addr s.object] = .ok (some s.object, []) := by
    rw [vaString, if_neg nonnull]
  -- the string has a NUL, and no limit cuts it
  have text : stringText {} s.object = .ok (s.bytes.map charInt) :=
    stringText_plain s.bytes s.noNul (by have := s.fits; omega)
  simp [parsed, formatText, Directive.textOf, applyFlags, convertText, argument, text]

/-- Printing `s` as a format and through `%s` is the same: in what is passed to the callback,
and in the cells that `cprintf` leaves on any screen. -/
structure PrintsAlike (s : CString) (addr : BitVec 32) : Prop where
  sequence : ∃ out, emitted s.bytes [] = .ok (out, []) ∧
    emitted (literal "%s") [.ptr addr s.object] = .ok (out, [])
  screen : ∀ con, con.crtPos.toNat < CRT_SIZE → ∃ con₁ con₂,
    cprintf s.object [] con = .ok (0, con₁) ∧
      cprintf (literal "%s" ++ [0]) [.ptr addr s.object] con = .ok (0, con₂) ∧
      ∀ i < CRT_SIZE, load16 con₁.mem (con₁.cellAddr i) = load16 con₂.mem (con₂.cellAddr i)

theorem charInt_eq_toNat_iff (b : UInt8) : charInt b = b.toNat ↔ b < 0x80 :=
  forall_byte (p := fun b => charInt b = b.toNat ↔ b < 0x80) (by decide +kernel) b

theorem charInt_ascii {s : List UInt8} :
    s.map charInt = s.map (fun b => (b.toNat : Int)) ↔ ∀ b ∈ s, b < 0x80 := by
  rw [List.map_inj_left]
  exact forall₂_congr fun b _ => charInt_eq_toNat_iff b

/-- The two ways agree on the texts whose bytes are the same signed and unsigned. -/
theorem printsAlike_iff (s : CString) (noPercent : '%'.toUInt8 ∉ s.bytes) {addr : BitVec 32}
    (nonnull : addr ≠ 0) : PrintsAlike s addr ↔ ∀ b ∈ s.bytes, b < 0x80 := by
  have asFormat := formatText_literal noPercent []
  have asString := formatText_string s nonnull
  constructor
  · rintro ⟨⟨out, format, string⟩, -⟩
    -- the callback is given both readings of every byte
    rw [emitted_iff s.noNul, asFormat] at format
    rw [emitted_iff (by decide), asString] at string
    rw [← charInt_ascii]
    simp_all
  · intro ascii
    rw [← charInt_ascii] at ascii
    rw [ascii] at asString
    refine ⟨⟨_, (emitted_iff s.noNul ..).mpr asFormat, (emitted_iff (by decide) ..).mpr asString⟩, ?_⟩
    intro con inside
    -- the same text leaves the same screen
    obtain ⟨con', printed, -, -⟩ := cprintf_shows s.noNul asFormat (shows_screen inside)
    refine ⟨con', con', printed, ?_, fun _ _ => rfl⟩
    rw [← printed, CString.object, cprintf_text s.noNul asFormat]
    exact cprintf_text (by decide) asString con

theorem printsAlike_iff_ascii :
    PrintsAlike ⟨literal "ls\n", by decide, by decide⟩ 0x1000 :=
  (printsAlike_iff _ (by decide) (by decide)).mpr (charInt_ascii.mp (by decide))

/-- The byte 0x80 has an attribute only when it comes through `%s`. -/
theorem printsAlike_high_byte :
    ¬PrintsAlike ⟨[0x80], by decide, by decide⟩ 0x1000 ∧
      ∃ con₁ con₂, cprintf [0x80, 0] [] ⟨fun _ => 0, .cga, 0, []⟩ = .ok (0, con₁) ∧
        cprintf (literal "%s" ++ [0]) [.ptr 0x1000 [0x80, 0]] ⟨fun _ => 0, .cga, 0, []⟩ =
          .ok (0, con₂) ∧
        load16 con₁.mem (con₁.cellAddr 0) = 0x0780 ∧
        load16 con₂.mem (con₂.cellAddr 0) = 0xFF80 := by
  have asFormat := @formatText_literal [0x80] (by decide) []
  have asString := @formatText_string ⟨[0x80], by decide, by decide⟩ 0x1000 (by decide)
  constructor
  · rintro ⟨⟨out, format, string⟩, -⟩
    rw [emitted_iff (by decide), asFormat] at format
    rw [emitted_iff (by decide), asString] at string
    exact absurd (format.trans string.symm) (by decide)
  · obtain ⟨con₁, printed₁, shows₁, -⟩ := cprintf_shows (by decide) asFormat
      (@shows_screen ⟨fun _ => 0, .cga, 0, []⟩ (by decide))
    obtain ⟨con₂, printed₂, shows₂, -⟩ := cprintf_shows (by decide) asString
      (@shows_screen ⟨fun _ => 0, .cga, 0, []⟩ (by decide))
    refine ⟨con₁, con₂, printed₁, printed₂, ?_, ?_⟩
    · exact (shows₁.cell ⟨0, by decide⟩).trans (by decide)
    · exact (shows₂.cell ⟨0, by decide⟩).trans (by decide)

end Jos
