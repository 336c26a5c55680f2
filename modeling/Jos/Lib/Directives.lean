import Jos.Lib.Printfmt
import Mathlib.Data.List.TakeWhile

/-!
# Formats as sequences of directives

The reading of a format that `vprintfmt` comes down to. The bytes of an escape between the
`%` and the character that ends it are its flags; what the switch does with them depends on
them alone, so every escape starts from the same locals and the format can be cut into
directives beforehand.
-/
namespace Jos

open Library

variable {σ : Type}

/-- A byte that leaves the switch in the escape. -/
def isFlag (b : UInt8) : Bool :=
  match switchLabel b with
  | .conversion _ | .default => false
  | _ => true

/-- The conversion that a character stands for, if it is one. -/
def conversion? (b : UInt8) : Option Conversion :=
  match switchLabel b with
  | .conversion c => some c
  | _ => none

def isDigit (b : UInt8) : Bool := '0'.toUInt8 ≤ b ∧ b ≤ '9'.toUInt8

inductive Directive where
  /-- A byte that is printed as it stands. -/
  | text (b : UInt8)
  | escape (flags : List UInt8) (c : Conversion)
  /-- An escape that an unrecognised character ends: only its `%` is printed here, and its
  bytes come again as text. -/
  | stray (flags : List UInt8)
  /-- An escape that the end of the format ends. -/
  | cut (flags : List UInt8)
  deriving DecidableEq

def directives : List UInt8 → List Directive
  | [] => []
  | b :: fmt =>
    if b ≠ '%'.toUInt8 then .text b :: directives fmt
    else
      match _h : fmt.dropWhile isFlag with
      | [] => .cut fmt :: directives fmt
      | c :: rest =>
        match conversion? c with
        | some k => .escape (fmt.takeWhile isFlag) k :: directives rest
        | none => .stray (fmt.takeWhile isFlag) :: directives fmt
termination_by fmt => fmt.length
decreasing_by
  all_goals simp only [List.length_cons]
  · omega
  · omega
  · have shorter := (List.dropWhile_suffix isFlag (l := fmt)).length_le
    rw [_h, List.length_cons] at shorter
    omega
  · omega

/-! ### How a format falls into directives -/

theorem isFlag_of_conversion {c : UInt8} {k : Conversion} (ended : conversion? c = some k) :
    isFlag c = false := by
  unfold conversion? at ended
  cases label : switchLabel c <;> simp [label] at ended
  -- a conversion has a label of its own, which is no flag
  simp [isFlag, label]

theorem takeWhile_flags {s : List UInt8} (all : ∀ b ∈ s, isFlag b = true) {c : UInt8}
    (ended : isFlag c = false) (rest : List UInt8) :
    (s ++ c :: rest).takeWhile isFlag = s ∧ (s ++ c :: rest).dropWhile isFlag = c :: rest := by
  rw [List.takeWhile_append_of_pos all, List.dropWhile_append_of_pos all]
  simp [ended]

theorem directives_nil : directives [] = [] := by
  rw [directives]

theorem directives_text {b : UInt8} (plain : b ≠ '%'.toUInt8) (fmt : List UInt8) :
    directives (b :: fmt) = .text b :: directives fmt := by
  rw [directives, if_pos plain]

theorem directives_cut {s : List UInt8} (all : ∀ b ∈ s, isFlag b = true) :
    directives ('%'.toUInt8 :: s) = .cut s :: directives s := by
  -- no byte after the `%` ends the escape
  have drained : s.dropWhile isFlag = [] := List.dropWhile_eq_nil_iff.mpr all
  rw [directives, if_neg (by simp)]
  split
  · rfl
  · next more => simp [drained] at more

theorem directives_escape {s : List UInt8} (all : ∀ b ∈ s, isFlag b = true) {c : UInt8}
    {k : Conversion} (ended : conversion? c = some k) (rest : List UInt8) :
    directives ('%'.toUInt8 :: (s ++ c :: rest)) = .escape s k :: directives rest := by
  obtain ⟨flags, drained⟩ := takeWhile_flags all (isFlag_of_conversion ended) rest
  rw [directives, if_neg (by simp)]
  split
  · next more => simp [drained] at more
  · next more =>
    rw [drained] at more
    cases more
    simp [ended, flags]

theorem directives_stray {s : List UInt8} (all : ∀ b ∈ s, isFlag b = true) {c : UInt8}
    (ended : isFlag c = false) (unrecognised : conversion? c = none) (rest : List UInt8) :
    directives ('%'.toUInt8 :: (s ++ c :: rest)) = .stray s :: directives (s ++ c :: rest) := by
  obtain ⟨flags, drained⟩ := takeWhile_flags all ended rest
  rw [directives, if_neg (by simp)]
  split
  · next more => simp [drained] at more
  · next more =>
    rw [drained] at more
    cases more
    simp [unrecognised, flags]

/-- Induction over a format, directive by directive. -/
@[elab_as_elim]
theorem format_induction {motive : List UInt8 → Prop}
    (nil : motive [])
    (text : ∀ b fmt, b ≠ '%'.toUInt8 → motive fmt → motive (b :: fmt))
    (cut : ∀ s, (∀ b ∈ s, isFlag b = true) → motive s → motive ('%'.toUInt8 :: s))
    (escape : ∀ s c k rest, (∀ b ∈ s, isFlag b = true) → conversion? c = some k →
      motive rest → motive ('%'.toUInt8 :: (s ++ c :: rest)))
    (stray : ∀ s c rest, (∀ b ∈ s, isFlag b = true) → isFlag c = false → conversion? c = none →
      motive (s ++ c :: rest) → motive ('%'.toUInt8 :: (s ++ c :: rest)))
    (fmt : List UInt8) : motive fmt := by
  -- what is left after the flags begins with a byte that is none
  have split : ∀ s c rest, s.dropWhile isFlag = c :: rest →
      s = s.takeWhile isFlag ++ c :: rest ∧ isFlag c = false := by
    intro s c rest drained
    have head := List.head?_dropWhile_not isFlag s
    rw [drained] at head
    exact ⟨by rw [← drained, List.takeWhile_append_dropWhile], by simpa using head⟩
  have flags : ∀ s : List UInt8, ∀ b ∈ s.takeWhile isFlag, isFlag b = true :=
    fun s b member => List.mem_takeWhile_imp member
  induction fmt using directives.induct with
  | case1 => exact nil
  | case2 b fmt plain ih => exact text b fmt plain ih
  | case3 b fmt percent ended ih =>
    rw [show b = '%'.toUInt8 by simpa using percent]
    exact cut fmt (List.dropWhile_eq_nil_iff.mp ended) ih
  | case4 b fmt percent c rest ended k recognised ih =>
    rw [show b = '%'.toUInt8 by simpa using percent, (split fmt c rest ended).1]
    exact escape _ c k rest (flags fmt) recognised ih
  | case5 b fmt percent c rest ended unrecognised ih =>
    obtain ⟨whole, plain⟩ := split fmt c rest ended
    rw [show b = '%'.toUInt8 by simpa using percent, whole]
    rw [whole] at ih
    exact stray _ c rest (flags fmt) plain unrecognised ih

/-! ### The flags of an escape -/

/-- The value of the digits of a width, computed as `int`. -/
def precisionOf (precision : Int) : List UInt8 → Int
  | [] => precision
  | b :: s => precisionOf (int32 (precision * 10 + b.toNat - ord '0')) s

def applyFlags : List UInt8 → Flags → VaList → Exec (Flags × VaList)
  | [], flags, ap => pure (flags, ap)
  | b :: s, flags, ap =>
    match switchLabel b with
    | .minus => applyFlags s { flags with padc := ord '-' } ap
    | .zero => applyFlags s { flags with padc := ord '0' } ap
    | .digit =>
      let precision := precisionOf 0 (b :: s.takeWhile isDigit)
      applyFlags (s.dropWhile isDigit) (Flags.processPrecision { flags with precision }) ap
    | .star => do
      let (v, ap) ← vaInt ap
      applyFlags s (Flags.processPrecision { flags with precision := v.toInt }) ap
    | .dot => applyFlags s flags.dot ap
    | .alt => applyFlags s { flags with altflag := true } ap
    | .long => applyFlags s { flags with lflag := flags.lflag + 1 } ap
    | _ => applyFlags s flags ap
termination_by s => s.length
decreasing_by
  all_goals simp only [List.length_cons]
  all_goals have := (List.dropWhile_suffix isDigit (l := s)).length_le
  all_goals omega

/-! ### Runs -/

/-- What `vprintfmt` does for one directive. -/
def Directive.run (printfmt : List UInt8 → σ → VaList → Exec (σ × VaList)) (putch : Putch σ) :
    Directive → σ → VaList → Exec (σ × VaList)
  | .text b, d, ap => do
    let d ← putch b.toNat d
    pure (d, ap)
  | .escape s c, d, ap => do
    let (flags, ap) ← applyFlags s {} ap
    convert printfmt putch flags d ap c
  | .stray s, d, ap | .cut s, d, ap => do
    let (_, ap) ← applyFlags s {} ap
    let d ← putch (ord '%') d
    pure (d, ap)

def runDirectives (printfmt : List UInt8 → σ → VaList → Exec (σ × VaList)) (putch : Putch σ) :
    List Directive → σ → VaList → Exec (σ × VaList)
  | [], d, ap => pure (d, ap)
  | directive :: rest, d, ap => do
    let (d, ap) ← directive.run printfmt putch d ap
    runDirectives printfmt putch rest d ap

/-! ### The switch reads the flags and nothing else -/

theorem isFlag_of_isDigit (b : UInt8) : isDigit b = true → isFlag b = true :=
  forall_byte (p := fun b => isDigit b = true → isFlag b = true) (by decide +kernel) b

theorem charInt_of_isDigit (b : UInt8) : isDigit b = true → charInt b = b.toNat :=
  forall_byte (p := fun b => isDigit b = true → charInt b = b.toNat) (by decide +kernel) b

theorem charInt_digit_iff (b : UInt8) :
    (charInt b < ord '0' ∨ charInt b > ord '9') ↔ isDigit b = false :=
  forall_byte (p := fun b => (charInt b < ord '0' ∨ charInt b > ord '9') ↔ isDigit b = false)
    (by decide +kernel) b

theorem readPrecision_digits (precision ch : Int) (s passed rest : List UInt8) (c : UInt8)
    (ended : isDigit c = false) :
    readPrecision precision ch passed (s ++ c :: rest) =
      .ok (precisionOf (int32 (precision * 10 + ch - ord '0')) (s.takeWhile isDigit),
        ⟨(s.takeWhile isDigit).reverse ++ passed, s.dropWhile isDigit ++ c :: rest⟩) := by
  induction s generalizing precision ch passed with
  | nil => simp [readPrecision, precisionOf, (charInt_digit_iff c).mpr ended]
  | cons b s ih =>
    by_cases digit : isDigit b = true
    · -- the loop goes on exactly at a digit
      have more : ¬(charInt b < ord '0' ∨ charInt b > ord '9') := by
        rw [charInt_digit_iff]
        simp [digit]
      rw [List.cons_append, readPrecision, if_neg more, ih, charInt_of_isDigit b digit]
      simp [digit, precisionOf]
    · simp only [Bool.not_eq_true] at digit
      -- the byte that is no digit is read and not consumed
      have stop := (charInt_digit_iff b).mpr digit
      simp [readPrecision, stop, digit, precisionOf]

/-- Up to the character that ends it, the switch does for an escape what `applyFlags` does. -/
theorem reswitch_flags (s : List UInt8) (passed rest : List UInt8) (c : UInt8) (fuel : Nat)
    (flags : Flags) (ap : VaList) (all : ∀ b ∈ s, isFlag b = true) (ended : isFlag c = false)
    (enough : s.length < fuel) :
    reswitch fuel ⟨passed, s ++ c :: rest⟩ flags ap = (do
      let (flags, ap) ← applyFlags s flags ap
      pure (conversion? c, ⟨c :: (s.reverse ++ passed), rest⟩, flags, ap)) := by
  induction s, flags, ap using applyFlags.induct generalizing fuel passed with
  | case1 flags ap =>
    obtain ⟨fuel, rfl⟩ : ∃ n, fuel = n + 1 := ⟨fuel - 1, by simp at enough; omega⟩
    unfold isFlag at ended
    cases label : switchLabel c <;> simp [label] at ended <;>
      simp [reswitch, FmtPtr.next, applyFlags, conversion?, label]
  | case4 b s flags ap label precision ih =>
    obtain ⟨fuel, rfl⟩ : ∃ n, fuel = n + 1 := ⟨fuel - 1, by simp at enough; omega⟩
    -- a digit is a flag, so the byte that ends the escape is none
    have stop : isDigit c = false := by
      by_contra digit
      simp [isFlag_of_isDigit c (by simpa using digit)] at ended
    have suffix := List.dropWhile_suffix isDigit (l := s)
    have later := ih ((s.takeWhile isDigit).reverse ++ b :: passed) fuel
      (fun x member => all x (by simp [suffix.subset member]))
      (by have := suffix.length_le; simp at enough; omega)
    have whole : (s.dropWhile isDigit).reverse ++ (s.takeWhile isDigit).reverse = s.reverse := by
      rw [← List.reverse_append, List.takeWhile_append_dropWhile]
    -- one turn of the switch reads all digits of the width
    have number := readPrecision_digits 0 b.toNat s (b :: passed) rest c stop
    rw [applyFlags]
    simp only [reswitch, FmtPtr.next, List.cons_append, Exec.ok_bind, label, number]
    rw [show precisionOf (int32 (0 * 10 + b.toNat - ord '0')) (s.takeWhile isDigit) = precision
      from rfl, later, ← List.append_assoc, whole]
    simp [precision]
  | case5 b s flags ap label ih =>
    obtain ⟨fuel, rfl⟩ : ∃ n, fuel = n + 1 := ⟨fuel - 1, by simp at enough; omega⟩
    rw [applyFlags]
    simp only [reswitch, FmtPtr.next, List.cons_append, Exec.ok_bind, label]
    -- both sides stop where `*` finds no argument
    cases argument : vaInt ap with
    | error e => rfl
    | ok result =>
      have later := ih result.1 result.2 (b :: passed) fuel
        (fun x member => all x (by simp [member])) (by simpa using enough)
      simp [later]
  | case9 b s flags ap _ _ _ _ _ _ _ _ =>
    -- the remaining labels end an escape, so this byte is no flag
    have flag := all b (by simp)
    unfold isFlag at flag
    cases label : switchLabel b <;> simp_all
  | _ b s flags ap label ih =>
    obtain ⟨fuel, rfl⟩ : ∃ n, fuel = n + 1 := ⟨fuel - 1, by simp at enough; omega⟩
    have later := ih (b :: passed) fuel (fun x member => all x (by simp [member]))
      (by simpa using enough)
    rw [applyFlags]
    simp [reswitch, FmtPtr.next, label, later]

theorem rewind_escape (s passed rest : List UInt8) (c : UInt8) (all : '%'.toUInt8 ∉ s) :
    FmtPtr.rewind ⟨c :: (s.reverse ++ '%'.toUInt8 :: passed), rest⟩ =
      .ok ⟨'%'.toUInt8 :: passed, s ++ c :: rest⟩ := by
  -- the scan passes everything that is not `%`
  have back : ∀ (t ahead : List UInt8), '%'.toUInt8 ∉ t →
      FmtPtr.rewind.back (t ++ '%'.toUInt8 :: passed) ahead =
        .ok ⟨'%'.toUInt8 :: passed, t.reverse ++ ahead⟩ := by
    intro t
    induction t with
    | nil => simp [FmtPtr.rewind.back]
    | cons b t ih =>
      intro ahead absent
      simp only [List.mem_cons, not_or] at absent
      simp [FmtPtr.rewind.back, Ne.symm absent.1, ih _ absent.2]
  rw [FmtPtr.rewind, back _ _ (by simpa using all), List.reverse_reverse]

/-! ### The outer loop -/

theorem vprintfmtLoop_escape (printfmt : List UInt8 → σ → VaList → Exec (σ × VaList))
    (putch : Putch σ) (s passed rest : List UInt8) (c : UInt8) (fuel : Nat) (d : σ) (ap : VaList)
    (all : ∀ b ∈ s, isFlag b = true) (ended : isFlag c = false) :
    vprintfmtLoop printfmt putch (fuel + 1) ⟨passed, '%'.toUInt8 :: (s ++ c :: rest)⟩ d ap = (do
      let (flags, ap) ← applyFlags s {} ap
      match conversion? c with
      | some k => do
        let (d, ap) ← convert printfmt putch flags d ap k
        vprintfmtLoop printfmt putch fuel ⟨c :: (s.reverse ++ '%'.toUInt8 :: passed), rest⟩ d ap
      | none => do
        let d ← putch (ord '%') d
        vprintfmtLoop printfmt putch fuel ⟨'%'.toUInt8 :: passed, s ++ c :: rest⟩ d ap) := by
  -- so the scan for an unrecognised escape stops at its own `%`
  have percent : '%'.toUInt8 ∉ s := fun member => absurd (all _ member) (by decide)
  have switch := reswitch_flags s ('%'.toUInt8 :: passed) rest c ((s ++ c :: rest).length + 1)
    {} ap all ended (by rw [List.length_append, List.length_cons]; omega)
  rw [vprintfmtLoop]
  simp only [FmtPtr.next, Exec.ok_bind, ne_eq, not_true_eq_false, if_false, switch]
  cases applyFlags s {} ap with
  | error e => rfl
  | ok result =>
    cases conversion? c with
    | some k => rfl
    | none => simp [rewind_escape s passed rest c percent]

/-- On a terminated format the outer loop is a run over the directives of the format. -/
theorem vprintfmtLoop_directives (printfmt : List UInt8 → σ → VaList → Exec (σ × VaList))
    (putch : Putch σ) (fmt passed : List UInt8) (fuel : Nat) (d : σ) (ap : VaList)
    (noNul : 0 ∉ fmt) (enough : fmt.length < fuel) :
    vprintfmtLoop printfmt putch fuel ⟨passed, fmt ++ [0]⟩ d ap =
      runDirectives printfmt putch (directives fmt) d ap := by
  obtain ⟨fuel, rfl⟩ : ∃ n, fuel = n + 1 := ⟨fuel - 1, by omega⟩
  induction fmt using format_induction generalizing fuel passed d ap with
  | nil =>
    have plain : (0 : UInt8) ≠ '%'.toUInt8 := by decide
    rw [directives_nil]
    simp [vprintfmtLoop, FmtPtr.next, runDirectives, plain]
  | text b fmt plain ih =>
    obtain ⟨fuel, rfl⟩ : ∃ n, fuel = n + 1 := ⟨fuel - 1, by simp at enough; omega⟩
    have nonzero : b ≠ 0 := fun nul => noNul (by simp [nul])
    have later := fun d => ih (b :: passed) d ap (fun member => noNul (by simp [member]))
      fuel (by simpa using enough)
    rw [directives_text plain, vprintfmtLoop]
    simp [FmtPtr.next, runDirectives, Directive.run, plain, nonzero, later]
  | cut s all ih =>
    obtain ⟨fuel, rfl⟩ : ∃ n, fuel = n + 1 := ⟨fuel - 1, by simp at enough; omega⟩
    have later := fun d ap => ih ('%'.toUInt8 :: passed) d ap
      (fun member => noNul (by simp [member])) fuel (by simpa using enough)
    -- the NUL of the format ends this escape, and no conversion has that character
    have escape := vprintfmtLoop_escape printfmt putch s passed [] 0 (fuel + 1) d ap all (by decide)
    rw [directives_cut all, List.cons_append, escape]
    simp [show conversion? 0 = none by decide, runDirectives, Directive.run, later]
  | escape s c k rest all ended ih =>
    obtain ⟨fuel, rfl⟩ : ∃ n, fuel = n + 1 := ⟨fuel - 1, by simp at enough; omega⟩
    have later := fun d ap => ih (c :: (s.reverse ++ '%'.toUInt8 :: passed)) d ap
      (fun member => noNul (by simp [member])) fuel (by simp at enough; omega)
    rw [directives_escape all ended, List.cons_append, List.append_assoc, List.cons_append,
      vprintfmtLoop_escape printfmt putch s passed _ c _ d ap all (isFlag_of_conversion ended)]
    simp [ended, runDirectives, Directive.run, later]
  | stray s c rest all ended unrecognised ih =>
    obtain ⟨fuel, rfl⟩ : ∃ n, fuel = n + 1 := ⟨fuel - 1, by simp at enough; omega⟩
    have later := fun d ap => ih ('%'.toUInt8 :: passed) d ap
      (fun member => noNul (List.mem_cons_of_mem _ member)) fuel (by simpa using enough)
    rw [directives_stray all ended unrecognised, List.cons_append, List.append_assoc,
      List.cons_append, vprintfmtLoop_escape printfmt putch s passed _ c _ d ap all ended]
    -- the loop goes back to the byte after the `%`
    simp only [List.append_assoc, List.cons_append] at later
    simp [unrecognised, runDirectives, Directive.run, later]

/-- A format is independent of what follows it unless it ends inside an escape. -/
theorem directives_append (f1 f2 : List UInt8) (closed : ∀ s, .cut s ∉ directives f1) :
    directives (f1 ++ f2) = directives f1 ++ directives f2 := by
  induction f1 using format_induction with
  | nil =>
    rw [directives_nil]
    rfl
  | text b fmt plain ih =>
    simp only [directives_text plain, List.mem_cons, not_or] at closed
    rw [directives_text plain, List.cons_append, directives_text plain,
      ih (fun s => (closed s).2), List.cons_append]
  | cut s all ih =>
    -- excluded: the second format would go on in this escape
    rw [directives_cut all] at closed
    exact absurd (List.mem_cons_self ..) (closed s)
  | escape s c k rest all ended ih =>
    simp only [directives_escape all ended, List.mem_cons, not_or] at closed
    rw [directives_escape all ended, List.cons_append, List.append_assoc, List.cons_append,
      directives_escape all ended, ih (fun s => (closed s).2), List.cons_append]
  | stray s c rest all ended unrecognised ih =>
    simp only [directives_stray all ended unrecognised, List.mem_cons, not_or] at closed
    have later := ih (fun s => (closed s).2)
    rw [List.append_assoc, List.cons_append] at later
    rw [directives_stray all ended unrecognised, List.cons_append, List.append_assoc,
      List.cons_append, directives_stray all ended unrecognised, later, List.cons_append]

end Jos
