import Mathlib.Data.List.Basic

/-!
# gradelib.py: assert_lines_match

The regular expressions are a parameter: `isMatch r line` is `re.match(r, line)`, and `pattern r`
the expression as it is written.
-/
namespace Jos

/-! ### color -/

/-- The keys of `COLORS` -/
inductive Color
  | default | red | green
deriving DecidableEq

def Color.code : Color → List Char
  | default => "\x1b[0m".toList
  | red => "\x1b[31m".toList
  | green => "\x1b[32m".toList

/-- `colored` is whether the options and the terminal ask for it. -/
def color (colored : Bool) (name : Color) (text : List Char) : List Char :=
  if colored then name.code ++ text ++ Color.default.code else text

/-! ### assert_lines_match -/

variable {ρ : Type} (isMatch : ρ → List Char → Bool)

/-- What the loop over the lines has found. -/
structure LinesFound (ρ : Type) where
  regexps : List ρ
  good : List Nat
  bad : List Nat

/-- `for i, line in enumerate(lines)`, from a line on. -/
def scanLines (no : List ρ) : Nat → List (List Char) → List ρ → LinesFound ρ
  | _, [], regexps => ⟨regexps, [], []⟩
  | i, line :: lines, regexps =>
    let found := regexps.any (isMatch · line)
    let left := if found then regexps.filter (!isMatch · line) else regexps
    let rest := scanLines no (i + 1) lines left
    { rest with
      good := if found then i :: rest.good else rest.good
      bad := if no.any (isMatch · line) then i :: rest.bad else rest.bad }

inductive Mark
  | bad | good | context
deriving DecidableEq

/-- A line of the failure message. -/
inductive MessageLine (ρ : Type)
  | dots
  | line (mark : Mark) (lineno : Nat)
  | unexpected
  | missing (r : ρ)

def Mark.text (colored : Bool) : Mark → List Char
  | bad => color colored .red "BAD ".toList
  | good => color colored .green "GOOD".toList
  | context => "    ".toList

def MessageLine.text (pattern : ρ → List Char) (colored : Bool) (lines : List (List Char)) :
    MessageLine ρ → List Char
  | dots => "...".toList
  | line mark lineno => mark.text colored ++ ' ' :: lines.getD lineno []
  | unexpected => "unexpected lines in output".toList
  | missing r => color colored .red "MISSING".toList ++ " '".toList ++ pattern r ++ "'".toList

namespace LinesFound

variable {isMatch} (found : LinesFound ρ) (count : Nat)

def mark (lineno : Nat) : Mark :=
  if lineno ∈ found.bad then .bad else if lineno ∈ found.good then .good else .context

/-- `show`: two lines around each that is good or bad, and the last five if an expression has no
line. -/
def shows (lineno : Nat) : Bool :=
  (found.good ++ found.bad).any (fun n => n ≤ lineno + 2 ∧ lineno ≤ n + 2) ||
    (!found.regexps.isEmpty && count ≤ lineno + 5)

/-- `sorted(show)`, as far as it is in the text. -/
def shown : List Nat :=
  (List.range count).filter (found.shows count)

/-- The loop over them; `next` is `last + 1`. -/
def excerpt : List Nat → Nat → List (MessageLine ρ)
  | [], next => if next ≠ count then [.dots] else []
  | lineno :: more, next =>
    (if lineno ≠ next then [.dots] else []) ++
      .line (found.mark lineno) lineno :: excerpt more (lineno + 1)

def message : List (MessageLine ρ) :=
  found.excerpt count (found.shown count) 0 ++
    (if found.bad = [] then [] else [.unexpected]) ++ found.regexps.map .missing

end LinesFound

/-- `"\n".join(msg)` -/
def joinMessage (pattern : ρ → List Char) (colored : Bool) (lines : List (List Char))
    (msg : List (MessageLine ρ)) : List Char :=
  ['\n'].intercalate (msg.map (MessageLine.text pattern colored lines))

variable (pattern : ρ → List Char) (colored : Bool)

/-- `assert_lines_match`, with `text.splitlines()`: `none`, or the message of the
`AssertionError`. -/
def assertLinesMatch (lines : List (List Char)) (regexps no : List ρ) : Option (List Char) :=
  let found := scanLines isMatch no 0 lines regexps
  if found.regexps.isEmpty && found.bad.isEmpty then none
  else some (joinMessage pattern colored lines (found.message lines.length))

/-! ### What the loop finds -/

section Scan

variable {isMatch}

theorem filter_found (line : List Char) (regexps : List ρ) :
    (if regexps.any (isMatch · line) then regexps.filter (!isMatch · line) else regexps) =
      regexps.filter (!isMatch · line) := by
  split
  · rfl
  · next none' => exact (List.filter_eq_self.mpr (by simpa using none')).symm

/-- The expressions that are left match no line. -/
theorem scanLines_regexps (no : List ρ) (i : Nat) (lines : List (List Char)) (regexps : List ρ) :
    (scanLines isMatch no i lines regexps).regexps =
      regexps.filter fun r => !lines.any (isMatch r) := by
  induction lines generalizing i regexps with
  | nil => simp [scanLines]
  | cons line lines ih =>
    rw [scanLines, filter_found]
    dsimp only
    rw [ih, List.filter_filter]
    exact List.filter_congr fun r _ => by simp [Bool.and_comm]

theorem map_shift (i : Nat) (found : Option Nat) :
    (found.map (· + 1)).map (i + ·) = found.map (i + 1 + ·) := by
  rw [Option.map_map]
  refine Option.map_congr fun k _ => ?_
  rw [Function.comp_apply]
  omega

/-- A good line is the first that some expression matches. -/
theorem scanLines_good (no : List ρ) (i : Nat) (lines : List (List Char)) (regexps : List ρ)
    (n : Nat) : n ∈ (scanLines isMatch no i lines regexps).good ↔
      ∃ r ∈ regexps, (lines.findIdx? (isMatch r)).map (i + ·) = some n := by
  induction lines generalizing i regexps with
  | nil => simp [scanLines]
  | cons line lines ih =>
    have later := ih (i + 1) (regexps.filter (!isMatch · line))
    have here : n ∈ (scanLines isMatch no i (line :: lines) regexps).good ↔
        (regexps.any (isMatch · line) = true ∧ n = i) ∨
          n ∈ (scanLines isMatch no (i + 1) lines (regexps.filter (!isMatch · line))).good := by
      rw [scanLines, filter_found]
      dsimp only
      split
      · next found => rw [List.mem_cons, found]; simp
      · next found => simp [found]
    rw [here, later]
    constructor
    · rintro (⟨found, rfl⟩ | ⟨r, member, first⟩)
      · obtain ⟨r, member, matched⟩ := List.any_eq_true.mp found
        exact ⟨r, member, by simp [List.findIdx?_cons, matched]⟩
      · obtain ⟨member, other⟩ := List.mem_filter.mp member
        have other : isMatch r line = false := by simpa using other
        refine ⟨r, member, ?_⟩
        rw [List.findIdx?_cons, if_neg (by simp [other]), map_shift, first]
    · rintro ⟨r, member, first⟩
      rw [List.findIdx?_cons] at first
      by_cases matched : isMatch r line
      · rw [if_pos matched] at first
        exact .inl ⟨List.any_eq_true.mpr ⟨r, member, matched⟩, (Option.some.inj first).symm⟩
      · rw [if_neg matched, map_shift] at first
        exact .inr ⟨r, List.mem_filter.mpr ⟨member, by simpa using matched⟩, first⟩

theorem scanLines_bad (no : List ρ) (i : Nat) (lines : List (List Char)) (regexps : List ρ)
    (n : Nat) : n ∈ (scanLines isMatch no i lines regexps).bad ↔
      ∃ k line, lines[k]? = some line ∧ n = i + k ∧ no.any (isMatch · line) = true := by
  induction lines generalizing i regexps with
  | nil => simp [scanLines]
  | cons line lines ih =>
    have later := ih (i + 1) (regexps.filter (!isMatch · line))
    have here : n ∈ (scanLines isMatch no i (line :: lines) regexps).bad ↔
        (no.any (isMatch · line) = true ∧ n = i) ∨
          n ∈ (scanLines isMatch no (i + 1) lines (regexps.filter (!isMatch · line))).bad := by
      rw [scanLines, filter_found]
      dsimp only
      split
      · next found => rw [List.mem_cons, found]; simp
      · next found => simp [found]
    rw [here, later]
    constructor
    · rintro (⟨found, rfl⟩ | ⟨k, line', at', rfl, found⟩)
      · exact ⟨0, line, rfl, rfl, found⟩
      · exact ⟨k + 1, line', at', by omega, found⟩
    · rintro ⟨k, line', at', rfl, found⟩
      cases k with
      | zero =>
        obtain rfl := Option.some.inj at'
        exact .inl ⟨found, rfl⟩
      | succ k => exact .inr ⟨k, line', at', by omega, found⟩

end Scan

/-! ### The excerpt of a failure -/

/-- From a line of a text on: the lines in order, and a mark wherever some are left out. -/
inductive Excerpt (count : Nat) : Nat → List (MessageLine ρ) → Prop
  | nil : Excerpt count count []
  | rest {next : Nat} : next < count → Excerpt count next [.dots]
  | line {next : Nat} {es : List (MessageLine ρ)} (mark : Mark) :
      Excerpt count (next + 1) es → Excerpt count next (.line mark next :: es)
  | gap {next lineno : Nat} {es : List (MessageLine ρ)} (mark : Mark) : next < lineno →
      Excerpt count (lineno + 1) es → Excerpt count next (.dots :: .line mark lineno :: es)

theorem excerpt_spec (found : LinesFound ρ) (count : Nat) {more : List Nat} {next : Nat}
    (sorted : more.Pairwise (· < ·)) (inside : ∀ n ∈ more, next ≤ n ∧ n < count)
    (le : next ≤ count) : Excerpt count next (found.excerpt count more next) := by
  induction more generalizing next with
  | nil =>
    rw [LinesFound.excerpt]
    split
    · exact .rest (by omega)
    · next all =>
      obtain rfl : next = count := by omega
      exact .nil
  | cons lineno more ih =>
    obtain ⟨above, sorted⟩ := List.pairwise_cons.mp sorted
    obtain ⟨least, less⟩ := inside lineno (by simp)
    have later : ∀ n ∈ more, lineno + 1 ≤ n ∧ n < count := fun n member =>
      ⟨above n member, (inside n (by simp [member])).2⟩
    have rest := ih sorted later less
    rw [LinesFound.excerpt]
    split
    · exact .gap _ (by omega) rest
    · next same =>
      obtain rfl : lineno = next := by omega
      exact .line _ rest

theorem line_mem_excerpt (found : LinesFound ρ) (count : Nat) (more : List Nat) (next : Nat)
    (mark : Mark) (n : Nat) : .line mark n ∈ found.excerpt count more next ↔
      n ∈ more ∧ mark = found.mark n := by
  induction more generalizing next with
  | nil => rw [LinesFound.excerpt]; split <;> simp
  | cons lineno more ih =>
    rw [LinesFound.excerpt, List.mem_append, List.mem_cons, ih]
    have noDots : .line mark n ∉ (if lineno ≠ next then [MessageLine.dots (ρ := ρ)] else []) := by
      split <;> simp
    constructor
    · rintro (dots | same | ⟨member, rfl⟩)
      · exact absurd dots noDots
      · obtain ⟨rfl, rfl⟩ := MessageLine.line.inj same
        exact ⟨by simp, rfl⟩
      · exact ⟨by simp [member], rfl⟩
    · rintro ⟨member, rfl⟩
      rcases List.mem_cons.mp member with rfl | member
      · exact .inr (.inl rfl)
      · exact .inr (.inr ⟨member, rfl⟩)

variable (lines : List (List Char)) (regexps no : List ρ)

theorem mem_bad (n : Nat) : n ∈ (scanLines isMatch no 0 lines regexps).bad ↔
    ∃ line, lines[n]? = some line ∧ ∃ r ∈ no, isMatch r line = true := by
  rw [scanLines_bad]
  constructor
  · rintro ⟨k, line, at', rfl, found⟩
    exact ⟨line, by rwa [Nat.zero_add], List.any_eq_true.mp found⟩
  · rintro ⟨line, at', found⟩
    exact ⟨n, line, at', (Nat.zero_add n).symm, List.any_eq_true.mpr found⟩

theorem mem_good (n : Nat) : n ∈ (scanLines isMatch no 0 lines regexps).good ↔
    ∃ r ∈ regexps, lines.findIdx? (isMatch r) = some n := by
  rw [scanLines_good]
  simp

theorem good_lt {n : Nat} (good : n ∈ (scanLines isMatch no 0 lines regexps).good) :
    n < lines.length := by
  obtain ⟨r, -, first⟩ := (mem_good isMatch lines regexps no n).mp good
  exact (List.findIdx?_eq_some_iff_getElem.mp first).1

theorem bad_lt {n : Nat} (bad : n ∈ (scanLines isMatch no 0 lines regexps).bad) :
    n < lines.length := by
  obtain ⟨line, at', -⟩ := (mem_bad isMatch lines regexps no n).mp bad
  exact (List.getElem?_eq_some_iff.mp at').1

theorem found_shown (found : LinesFound ρ) {count n : Nat} (inside : n < count)
    (one : n ∈ found.good ∨ n ∈ found.bad) : n ∈ found.shown count := by
  rw [LinesFound.shown, List.mem_filter, List.mem_range, LinesFound.shows, Bool.or_eq_true]
  refine ⟨inside, .inl (List.any_eq_true.mpr ⟨n, List.mem_append.mpr one, ?_⟩)⟩
  simp

theorem bad_eq_nil : (scanLines isMatch no 0 lines regexps).bad = [] ↔
    ¬ ∃ line ∈ lines, ∃ r ∈ no, isMatch r line = true := by
  rw [List.eq_nil_iff_forall_not_mem]
  constructor
  · rintro none' ⟨line, member, found⟩
    obtain ⟨n, at'⟩ := List.mem_iff_getElem?.mp member
    exact none' n ((mem_bad isMatch lines regexps no n).mpr ⟨line, at', found⟩)
  · intro none' n bad
    obtain ⟨line, at', found⟩ := (mem_bad isMatch lines regexps no n).mp bad
    exact none' ⟨line, List.mem_of_getElem? at', found⟩

theorem assertLinesMatch_none : assertLinesMatch isMatch pattern colored lines regexps no = none ↔
    (∀ r ∈ regexps, ∃ line ∈ lines, isMatch r line = true) ∧
      ¬ ∃ line ∈ lines, ∃ r ∈ no, isMatch r line = true := by
  rw [← bad_eq_nil isMatch lines regexps no, assertLinesMatch]
  have all : (scanLines isMatch no 0 lines regexps).regexps = [] ↔
      ∀ r ∈ regexps, ∃ line ∈ lines, isMatch r line = true := by
    rw [scanLines_regexps, List.filter_eq_nil_iff]
    simp
  rw [← all]
  simp

/-- The assertion holds exactly when every expression matches a line and no line matches one of
`no`. Otherwise the message is an excerpt of the text, with a mark for whatever is left out, in
which the lines of `no` are bad and the first match of each expression is good; then come the
expressions that match nothing. -/
theorem assert_lines_match_exact :
    (assertLinesMatch isMatch pattern colored lines regexps no = none ↔
      (∀ r ∈ regexps, ∃ line ∈ lines, isMatch r line = true) ∧
      ¬ ∃ line ∈ lines, ∃ r ∈ no, isMatch r line = true) ∧
    ∀ message, assertLinesMatch isMatch pattern colored lines regexps no = some message →
      ∃ excerpt, Excerpt lines.length 0 excerpt ∧
        message = joinMessage pattern colored lines (excerpt ++
          (if ∃ line ∈ lines, ∃ r ∈ no, isMatch r line = true then [.unexpected] else []) ++
          (regexps.filter fun r => !lines.any (isMatch r)).map .missing) ∧
        (∀ n, .line .bad n ∈ excerpt ↔
          ∃ line, lines[n]? = some line ∧ ∃ r ∈ no, isMatch r line = true) ∧
        ∀ n, .line .good n ∈ excerpt ↔ (∃ r ∈ regexps, lines.findIdx? (isMatch r) = some n) ∧
          ¬ ∃ line, lines[n]? = some line ∧ ∃ r ∈ no, isMatch r line = true := by
  refine ⟨assertLinesMatch_none isMatch pattern colored lines regexps no, fun message failed => ?_⟩
  have left := @scanLines_regexps _ isMatch no 0 lines regexps
  have bad := mem_bad isMatch lines regexps no
  have good := mem_good isMatch lines regexps no
  have noBad := bad_eq_nil isMatch lines regexps no
  have badShown := fun n bad => found_shown (scanLines isMatch no 0 lines regexps)
    (bad_lt isMatch lines regexps no (n := n) bad) (.inr bad)
  have goodShown := fun n good => found_shown (scanLines isMatch no 0 lines regexps)
    (good_lt isMatch lines regexps no (n := n) good) (.inl good)
  rw [assertLinesMatch] at failed
  generalize scanLines isMatch no 0 lines regexps = found at *
  have text : joinMessage pattern colored lines (found.message lines.length) = message := by
    split at failed
    · cases failed
    · exact Option.some.inj failed
  have sorted : (found.shown lines.length).Pairwise (· < ·) :=
    List.pairwise_lt_range.filter _
  have inside : ∀ n ∈ found.shown lines.length, 0 ≤ n ∧ n < lines.length := fun n member =>
    ⟨Nat.zero_le n, List.mem_range.mp (List.mem_of_mem_filter member)⟩
  refine ⟨_, excerpt_spec found lines.length sorted inside (Nat.zero_le _), ?_, ?_, ?_⟩
  · rw [← text, LinesFound.message, left]
    by_cases none' : found.bad = []
    · rw [if_pos none', if_neg (noBad.mp none')]
    · rw [if_neg none', if_pos (not_not.mp (mt noBad.mpr none'))]
  · intro n
    rw [line_mem_excerpt, ← bad, LinesFound.mark]
    refine ⟨fun ⟨_, mark⟩ => ?_, fun isBad => ⟨badShown n isBad, by rw [if_pos isBad]⟩⟩
    by_contra notBad
    rw [if_neg notBad] at mark
    split at mark <;> cases mark
  · intro n
    rw [line_mem_excerpt, ← bad, ← good, LinesFound.mark]
    constructor
    · rintro ⟨_, mark⟩
      split at mark
      · cases mark
      · next notBad =>
        split at mark
        · next isGood => exact ⟨isGood, notBad⟩
        · cases mark
    · rintro ⟨isGood, notBad⟩
      exact ⟨goodShown n isGood, by rw [if_neg notBad, if_pos isGood]⟩

end Jos
