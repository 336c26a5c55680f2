import Mathlib.Algebra.Order.BigOperators.Group.List
import Mathlib.Algebra.Order.Ring.Nat
import Mathlib.Data.List.Infix
import Jos.Library.Dependencies

/-!
# gradelib.py: the tests

A script registers its tests, some under a parent, and the ends of its parts. `run_tests` runs
those that its arguments select.
-/
namespace Jos

open Library

variable {σ : Type}

/-- An exception that ends a run: nothing catches it, or `run_tests` catches it outside its loop.
`SystemExit` brings a status. -/
inductive Stop
  | keyboardInterrupt | systemExit (status : Nat) | other

/-- How a test function ends. `fail` is the text of its `AssertionError`. -/
inductive Outcome
  | passed
  | failed (fail : List Char) (nonempty : fail ≠ [])
  | stopped (stop : Stop)

/-- `None` or the text, if the function has come to a verdict. -/
def Outcome.fail : Outcome → Except Stop (Option (List Char))
  | passed => .ok none
  | failed fail _ => .ok (some fail)
  | stopped stop => .error stop

/-- A callback of `on_finish`. It is called with `fail`, works on what the tests share, and may
raise; an `AssertionError` is then like any other. -/
abbrev OnFinish (σ : Type) := Option (List Char) → σ → Option Stop × σ

/-- What a test function does, and the callbacks that it has put into `on_finish`. -/
structure FnRun (σ : Type) where
  outcome : Outcome
  onFinish : List (OnFinish σ)
  shared : σ

/-- What `test` registers; the function works on what the tests share. -/
structure RunTest (σ : Type) where
  points : Nat
  title : List Char
  parent : Option Nat
  fn : σ → FnRun σ

/-- The title of a test: its own or its function's, indented under a parent. -/
def registeredTitle (title : List Char) (name : List Char) (parent : Option Nat) :
    Option (List Char) :=
  let indent := fun t => if parent.isSome then ' ' :: ' ' :: t else t
  if title ≠ [] then some (indent title)
  else if "test_".toList.isPrefixOf name then
    some (indent ((name.drop 5).map fun c => if c = '_' then ' ' else c))
  else none

inductive Registered (σ : Type)
  | test (t : RunTest σ)
  | part (name : List Char)

/-- `TESTS`. A test that is a parent has been registered before. -/
structure Registry (σ : Type) where
  tests : List (Registered σ)
  parents : ∀ {i : Nat} {t : RunTest σ}, tests[i]? = some (.test t) → ∀ p, t.parent = some p →
    p < i ∧ ∃ t', tests[p]? = some (.test t')

theorem getElem?_register {tests : List (Registered σ)} (r : Registered σ) {i : Nat}
    {t : RunTest σ} (here : tests[i]? = some (.test t)) :
    (tests ++ [r])[i]? = some (.test t) := by
  rwa [List.getElem?_append_left (List.getElem?_eq_some_iff.mp here).1]

theorem register_cases {tests : List (Registered σ)} {r : Registered σ} {i : Nat} {t : RunTest σ}
    (here : (tests ++ [r])[i]? = some (.test t)) :
    tests[i]? = some (.test t) ∨ i = tests.length ∧ r = .test t := by
  rcases Nat.lt_trichotomy i tests.length with less | rfl | more
  · exact .inl (by rwa [List.getElem?_append_left less] at here)
  · exact .inr ⟨rfl, by simpa using here⟩
  · rw [List.getElem?_eq_none (by rw [List.length_append, List.length_singleton]; omega)] at here
    cases here

/-- `test` as a decorator of the function `name`; its parent is a test. -/
def Registry.test (reg : Registry σ) (points : Nat) (title name : List Char) (parent : Option Nat)
    (isTest : ∀ p, parent = some p → ∃ t, reg.tests[p]? = some (.test t)) (fn : σ → FnRun σ) :
    Option (Registry σ) :=
  (registeredTitle title name parent).map fun title =>
    { tests := reg.tests ++ [.test ⟨points, title, parent, fn⟩]
      parents := by
        intro i t here p needs
        rcases register_cases here with old | ⟨rfl, new⟩
        · obtain ⟨less, t', above⟩ := reg.parents old p needs
          exact ⟨less, t', getElem?_register _ above⟩
        · obtain rfl := Registered.test.inj new
          obtain ⟨t', above⟩ := isTest p needs
          exact ⟨(List.getElem?_eq_some_iff.mp above).1, t', getElem?_register _ above⟩ }

/-- `end_part` -/
def Registry.endPart (reg : Registry σ) (name : List Char) : Registry σ where
  tests := reg.tests ++ [.part name]
  parents := by
    intro i t here p needs
    rcases register_cases here with old | ⟨-, new⟩
    · obtain ⟨less, t', above⟩ := reg.parents old p needs
      exact ⟨less, t', getElem?_register _ above⟩
    · cases new

/-- The verdict on a test. -/
structure Verdict where
  title : List Char
  points : Nat
  fail : Option (List Char)

def Verdict.earned (v : Verdict) : Nat := if v.fail.isSome then 0 else v.points

/-- A line of the report: a title without a verdict, the verdict on a test with its message, the
score of a part, or of all. -/
inductive ReportLine
  | started (title : List Char)
  | test (verdict : Verdict)
  | part (name : List Char) (total possible : Nat)
  | score (total possible : Nat)

/-- The counters, what is printed, and what the tests share. -/
structure Score (σ : Type) where
  total : Nat
  possible : Nat
  partTotal : Nat
  partPossible : Nat
  printed : List ReportLine
  shared : σ

def Score.start (w : σ) : Score σ := ⟨0, 0, 0, 0, [], w⟩

/-- `for callback in run_test.on_finish: callback(fail)` -/
def callOnFinish (fail : Option (List Char)) : List (OnFinish σ) → σ → Option Stop × σ
  | [], w => (none, w)
  | callback :: callbacks, w =>
    match callback fail w with
    | (some stop, w) => (some stop, w)
    | (none, w) => callOnFinish fail callbacks w

/-- `run_test` from its title on. -/
def RunTest.run (t : RunTest σ) (s : Score σ) : Except (Stop × Score σ) (Score σ) :=
  let r := t.fn s.shared
  match r.outcome.fail with
  | .error stop =>
    .error (stop, { s with printed := s.printed ++ [.started t.title], shared := r.shared })
  | .ok fail =>
    let s := { s with
      possible := s.possible + t.points
      total := if fail.isSome then s.total else s.total + t.points
      printed := s.printed ++ [ReportLine.test ⟨t.title, t.points, fail⟩] }
    match callOnFinish fail r.onFinish r.shared with
    | (some stop, w) => .error (stop, { s with shared := w })
    | (none, w) => .ok { s with shared := w }

/-- `show_part` -/
def showPart (name : List Char) (s : Score σ) : Score σ :=
  { s with
    printed := s.printed ++ [.part name (s.total - s.partTotal) (s.possible - s.partPossible)]
    partTotal := s.total
    partPossible := s.possible }

namespace Registry

variable (reg : Registry σ)

def parent (i : Nat) : Option Nat :=
  match reg.tests[i]? with
  | some (.test t) => t.parent
  | _ => none

theorem parent_eq_some {i p : Nat} (needs : reg.parent i = some p) :
    p < i ∧ ∃ t, reg.tests[p]? = some (.test t) := by
  rw [parent] at needs
  split at needs
  · next t here => exact reg.parents here p needs
  · cases needs

def dependencies : Dependencies where
  parent := reg.parent
  earlier needs := (reg.parent_eq_some needs).1

/-- What stands at an index of `TESTS`, without the dependencies. -/
def act (s : Score σ) (i : Nat) : Except (Stop × Score σ) (Score σ) :=
  match reg.tests[i]? with
  | some (.test t) => t.run s
  | some (.part name) => .ok (showPart name s)
  | none => .ok s

def title (i : Nat) : List Char :=
  match reg.tests[i]? with
  | some (.test t) => t.title
  | _ => []

section Select

-- `str.lower`, which knows more letters than those of ASCII
variable (lower : List Char → List Char)

/-- `not limit or any(l in test.title.lower() for l in limit)` -/
def selects (limit : List (List Char)) (i : Nat) : Bool :=
  limit.isEmpty || limit.any fun l => l <:+: lower (reg.title i)

def selected (limit : List (List Char)) : List Nat :=
  (List.range reg.tests.length).filter (reg.selects lower limit)

end Select

/-- The loop of `run_tests`: `test()` is `run_test` or `show_part`. -/
def callEach : List Nat → List Nat → Score σ → Except (Stop × Score σ) (Score σ)
  | [], _, s => .ok s
  | i :: is, complete, s =>
    match reg.tests[i]? with
    | some (.part name) => callEach is complete (showPart name s)
    | _ => (reg.dependencies.visit reg.act i complete s).bind fun (complete, s) =>
      callEach is complete s

/-- How `run_tests` ends, and the exit status of the script. -/
def finish (limit : List (List Char)) : Except (Stop × Score σ) (Score σ) → Score σ × Nat
  | .ok s =>
    let printed := if limit.isEmpty then s.printed ++ [.score s.total s.possible] else s.printed
    ({ s with printed }, if s.total < s.possible then 1 else 0)
  | .error (.keyboardInterrupt, s) => (s, if s.total < s.possible then 1 else 0)
  | .error (.systemExit status, s) => (s, status)
  | .error (.other, s) => (s, 1)

/-- `run_tests`, with the arguments of the command line and after `make`. -/
def runTests (lower : List Char → List Char) (args : List (List Char)) (w : σ) : Score σ × Nat :=
  let limit := args.map lower
  finish limit (reg.callEach (reg.selected lower limit) [] (.start w))

/-! ### The plan of a run -/

variable {reg}

/-- Only tests are needed. -/
theorem chain_test {i j : Nat} (member : j ∈ reg.dependencies.chain i) (other : j ≠ i) :
    ∃ t, reg.tests[j]? = some (.test t) := by
  induction i using Nat.strongRecOn with
  | _ i ih =>
    cases needs : reg.dependencies.parent i with
    | none =>
      rw [Dependencies.chain_root needs, List.mem_singleton] at member
      exact absurd member other
    | some p =>
      rw [Dependencies.chain_needs needs, List.mem_append, List.mem_singleton] at member
      rcases member with above | self
      · by_cases direct : j = p
        · rw [direct]
          exact (reg.parent_eq_some needs).2
        · exact ih p (reg.dependencies.earlier needs) above direct
      · exact absurd self other

theorem foldlM_front {xs ys : List Nat} (front : xs <+: ys) {s : Score σ}
    {e : Stop × Score σ} (stops : xs.foldlM reg.act s = .error e) :
    ys.foldlM reg.act s = .error e := by
  obtain ⟨more, rfl⟩ := front
  rw [List.foldlM_append, stops]
  rfl

theorem callEach_eq {wanted before : List Nat} (once : (before ++ wanted).Nodup)
    (inside : ∀ i ∈ wanted, i < reg.tests.length) {complete : List Nat}
    (agree : ∀ j t, reg.tests[j]? = some (.test t) →
      (j ∈ complete ↔ j ∈ reg.dependencies.order before))
    {s₀ s : Score σ} (prior : (reg.dependencies.order before).foldlM reg.act s₀ = .ok s) :
    reg.callEach wanted complete s =
      (reg.dependencies.order (before ++ wanted)).foldlM reg.act s₀ := by
  induction wanted generalizing before complete s with
  | nil => rw [List.append_nil, prior]; rfl
  | cons i is ih =>
    have split : before ++ i :: is = (before ++ [i]) ++ is := by simp
    have later : ∀ j ∈ is, j < reg.tests.length := fun j member => inside j (by simp [member])
    have go : (reg.dependencies.order (before ++ [i])).foldlM reg.act s₀ =
        ((reg.dependencies.chain i).removeAll (reg.dependencies.order before)).foldlM
          reg.act s := by
      rw [Dependencies.order_concat, List.foldlM_append, prior]
      rfl
    rw [split] at once ⊢
    cases entry : reg.tests[i]? with
    | none =>
      have outside := List.getElem?_eq_none_iff.mp entry
      exact absurd (inside i (by simp)) (Nat.not_lt.mpr outside)
    | some r =>
      cases r with
      | part name =>
        have root : reg.dependencies.parent i = none := by simp [dependencies, parent, entry]
        have fresh : i ∉ reg.dependencies.order before := by
          intro ran
          obtain ⟨j, earlier, above⟩ := Dependencies.mem_order.mp ran
          have other : i ≠ j := by
            rintro rfl
            rw [List.append_assoc, List.nodup_append] at once
            exact once.2.2 i earlier i (by simp) rfl
          obtain ⟨t, test⟩ := chain_test above other
          rw [entry] at test
          cases test
        have step : (reg.dependencies.order (before ++ [i])).foldlM reg.act s₀ =
            .ok (showPart name s) := by
          rw [go, Dependencies.chain_root root, List.removeAll]
          simp [fresh, act, entry]
        have run : reg.callEach (i :: is) complete s =
            reg.callEach is complete (showPart name s) := by
          rw [callEach, entry]
        rw [run]
        refine ih once later (fun j t test => ?_) step
        have other : j ≠ i := by
          rintro rfl
          rw [entry] at test
          cases test
        rw [agree j t test, Dependencies.mem_order_concat, Dependencies.chain_root root,
          List.mem_singleton, or_iff_left other]
      | test t =>
        have closed := Dependencies.order_prefix_closed (d := reg.dependencies)
          (List.prefix_refl (reg.dependencies.order before))
        have needed : ∀ j ∈ reg.dependencies.chain i, ∃ t, reg.tests[j]? = some (.test t) := by
          intro j member
          by_cases self : j = i
          · exact ⟨t, self ▸ entry⟩
          · exact chain_test member self
        obtain ⟨complete', member, visits⟩ := Dependencies.visit_eq reg.act i closed complete
          fun j member => agree j _ (needed j member).choose_spec
        have run : reg.callEach (i :: is) complete s =
            (reg.dependencies.visit reg.act i complete s).bind fun (complete, s) =>
              reg.callEach is complete s := by
          rw [callEach, entry]
        rw [run, visits s]
        rw [← go]
        cases ran : (reg.dependencies.order (before ++ [i])).foldlM reg.act s₀ with
        | error e => exact (foldlM_front (Dependencies.order_front _ is) ran).symm
        | ok s' =>
          refine ih once later (fun j t test => ?_) ran
          rw [member, agree j t test, Dependencies.mem_order_concat]

variable (reg)

theorem selected_plan (lower : List Char → List Char) (limit : List (List Char)) (w : σ) :
    reg.callEach (reg.selected lower limit) [] (.start w) =
      (reg.dependencies.order (reg.selected lower limit)).foldlM reg.act (.start w) := by
  have once : ([] ++ reg.selected lower limit).Nodup := List.nodup_range.filter _
  have inside : ∀ i ∈ reg.selected lower limit, i < reg.tests.length := fun i member =>
    List.mem_range.mp (List.mem_of_mem_filter member)
  have none' : reg.dependencies.order [] = [] := rfl
  refine callEach_eq once inside (fun j t _ => ?_) rfl
  rw [none']

/-- A run is the run of a plan: every test that is selected and all that it needs, nothing twice,
and wherever the run stops no test has run before its parents. Without a filter the plan is
everything, in the order of registration. -/
theorem run_tests_plan (lower : List Char → List Char) (args : List (List Char)) (w : σ) :
    let limit := args.map lower
    let plan := reg.dependencies.order (reg.selected lower limit)
    reg.runTests lower args w = finish limit (plan.foldlM reg.act (.start w)) ∧ plan.Nodup ∧
      (∀ j, j ∈ plan ↔ ∃ i ∈ reg.selected lower limit, j ∈ reg.dependencies.chain i) ∧
      (∀ ran, ran <+: plan → ∀ i ∈ ran, ∀ p, reg.parent i = some p → p ∈ ran) ∧
      (args = [] → plan = List.range reg.tests.length) := by
  intro limit plan
  refine ⟨congrArg (finish limit) (reg.selected_plan lower limit w), Dependencies.order_nodup _,
    fun j => Dependencies.mem_order, fun ran front => Dependencies.order_prefix_closed front, ?_⟩
  rintro rfl
  have all : reg.selected lower limit = List.range reg.tests.length :=
    List.filter_eq_self.mpr fun i _ => rfl
  exact (congrArg reg.dependencies.order all).trans (Dependencies.order_range _)

end Registry

/-! ### What the tests do -/

/-- What the functions and callbacks of some tests have come to: the verdicts, the exception that
has ended the run, and what the tests share. -/
structure Trials (σ : Type) where
  verdicts : List Verdict
  stop : Option Stop
  shared : σ

def RunTest.trial (t : RunTest σ) (w : σ) : Trials σ :=
  let r := t.fn w
  match r.outcome.fail with
  | .error stop => ⟨[], some stop, r.shared⟩
  | .ok fail =>
    let (stop, w) := callOnFinish fail r.onFinish r.shared
    ⟨[⟨t.title, t.points, fail⟩], stop, w⟩

/-- The tests of a plan one after the other, until one ends the run. -/
def Registry.trials (reg : Registry σ) : List Nat → σ → Trials σ
  | [], w => ⟨[], none, w⟩
  | i :: plan, w =>
    match reg.tests[i]? with
    | some (.test t) =>
      let trial := t.trial w
      if trial.stop.isSome then trial
      else
        let rest := trials reg plan trial.shared
        { rest with verdicts := trial.verdicts ++ rest.verdicts }
    | _ => trials reg plan w

def ReportLine.verdict? : ReportLine → Option Verdict
  | .test verdict => some verdict
  | _ => none

def verdicts (lines : List ReportLine) : List Verdict := lines.filterMap ReportLine.verdict?

/-- The exception that a run has ended with, and the score. -/
def ended : Except (Stop × Score σ) (Score σ) → Option Stop × Score σ
  | .ok s => (none, s)
  | .error (stop, s) => (some stop, s)

/-- A run from the score `s` has printed these verdicts, and ended as the tests have. -/
structure Reports (s : Score σ) (run : Except (Stop × Score σ) (Score σ)) (did : Trials σ) :
    Prop where
  stop : (ended run).1 = did.stop
  shared : (ended run).2.shared = did.shared
  verdicts : Jos.verdicts (ended run).2.printed = Jos.verdicts s.printed ++ did.verdicts

theorem run_reports (t : RunTest σ) (s : Score σ) : Reports s (t.run s) (t.trial s.shared) := by
  rw [RunTest.run, RunTest.trial]
  dsimp only
  cases (t.fn s.shared).outcome.fail with
  | error stop => exact ⟨rfl, rfl, by simp [ended, verdicts, ReportLine.verdict?]⟩
  | ok fail =>
    dsimp only
    split <;> next called =>
      rw [called]
      exact ⟨rfl, rfl, by simp [ended, verdicts, ReportLine.verdict?]⟩

theorem plan_reports (reg : Registry σ) (plan : List Nat) (s : Score σ) :
    Reports s (plan.foldlM reg.act s) (reg.trials plan s.shared) := by
  induction plan generalizing s with
  | nil => exact ⟨rfl, rfl, (List.append_nil _).symm⟩
  | cons i plan ih =>
    rw [List.foldlM_cons, Registry.act, Registry.trials]
    rcases here : reg.tests[i]? with _ | ⟨t⟩ | ⟨name⟩
    · exact ih s
    · obtain ⟨stop, shared, told⟩ := run_reports t s
      dsimp only
      cases ran : t.run s with
      | error e =>
        rw [ran] at stop shared told
        have stops : (t.trial s.shared).stop.isSome := by rw [← stop]; rfl
        rw [if_pos stops]
        exact ⟨stop, shared, told⟩
      | ok s' =>
        rw [ran] at stop shared told
        have goes : ¬(t.trial s.shared).stop.isSome := by rw [← stop]; exact Bool.false_ne_true
        have told : verdicts s'.printed = verdicts s.printed ++ (t.trial s.shared).verdicts := told
        rw [if_neg goes, ← shared]
        obtain ⟨stop', shared', told'⟩ := ih s'
        exact ⟨stop', shared', by rw [told, List.append_assoc] at told'; exact told'⟩
    · obtain ⟨stop, shared, told⟩ := ih (showPart name s)
      refine ⟨stop, shared, told.trans ?_⟩
      simp [showPart, verdicts, ReportLine.verdict?]

/-! ### The report -/

namespace Verdict

theorem earned_lt_iff (v : Verdict) : v.earned < v.points ↔ v.fail.isSome ∧ 0 < v.points := by
  rw [earned]
  split
  · simp [*]
  · simp [*]

theorem earned_le (v : Verdict) : v.earned ≤ v.points := by
  rw [earned]
  split
  · exact Nat.zero_le _
  · exact Nat.le_refl _

end Verdict

/-- The points of the tests that have passed. -/
def earned (vs : List Verdict) : Nat := (vs.map Verdict.earned).sum

/-- The points of all tests. -/
def worth (vs : List Verdict) : Nat := (vs.map Verdict.points).sum

/-- The points that are missing are those of a test that has failed. -/
theorem earned_lt_worth (vs : List Verdict) :
    earned vs < worth vs ↔ ∃ v ∈ vs, v.fail.isSome ∧ 0 < v.points := by
  constructor
  · intro less
    obtain ⟨v, member, less⟩ := List.exists_lt_of_sum_lt _ _ less
    exact ⟨v, member, v.earned_lt_iff.mp less⟩
  · rintro ⟨v, member, fails⟩
    exact List.sum_lt_sum _ _ (fun v _ => v.earned_le) ⟨v, member, v.earned_lt_iff.mpr fails⟩

/-- What the scores of the parts claim. -/
def partsEarned (lines : List ReportLine) : Nat :=
  (lines.map fun | .part _ total _ => total | _ => 0).sum

def partsWorth (lines : List ReportLine) : Nat :=
  (lines.map fun | .part _ _ possible => possible | _ => 0).sum

/-- The parts so far have claimed all the points before them. -/
def PartsAdd (lines : List ReportLine) : Prop :=
  ∀ before name total possible after, lines = before ++ .part name total possible :: after →
    partsEarned before + total = earned (verdicts before) ∧
    partsWorth before + possible = worth (verdicts before)

theorem PartsAdd.concat {lines : List ReportLine} (adds : PartsAdd lines) {line : ReportLine}
    (last : ∀ name total possible, line = .part name total possible →
      partsEarned lines + total = earned (verdicts lines) ∧
      partsWorth lines + possible = worth (verdicts lines)) :
    PartsAdd (lines ++ [line]) := by
  intro before name total possible after split
  rcases List.eq_nil_or_concat after with rfl | ⟨after', line', rfl⟩
  · obtain ⟨rfl, same⟩ := List.append_inj' split rfl
    exact last name total possible (List.cons.inj same).1
  · rw [List.concat_eq_append, ← List.cons_append, ← List.append_assoc] at split
    obtain ⟨rfl, -⟩ := List.append_inj' split rfl
    exact adds before name total possible after' rfl

/-- The counters are sums over the report. -/
structure Tallied (s : Score σ) : Prop where
  total : s.total = earned (verdicts s.printed)
  possible : s.possible = worth (verdicts s.printed)
  partTotal : s.partTotal = partsEarned s.printed
  partPossible : s.partPossible = partsWorth s.printed
  totalLe : s.partTotal ≤ s.total
  possibleLe : s.partPossible ≤ s.possible
  parts : PartsAdd s.printed

theorem start_tallied (w : σ) : Tallied (Score.start w) where
  total := rfl
  possible := rfl
  partTotal := rfl
  partPossible := rfl
  totalLe := Nat.le_refl 0
  possibleLe := Nat.le_refl 0
  parts := by
    intro before name total possible after split
    exact absurd split (by simp [Score.start])

theorem Tallied.share {s : Score σ} (tallied : Tallied s) (w : σ) :
    Tallied { s with shared := w } := by
  obtain ⟨total, possible, partTotal, partPossible, totalLe, possibleLe, parts⟩ := tallied
  exact ⟨total, possible, partTotal, partPossible, totalLe, possibleLe, parts⟩

/-- Neither a verdict nor the score of a part. -/
def ReportLine.Plain (line : ReportLine) : Prop :=
  (∃ title, line = .started title) ∨ ∃ total possible, line = .score total possible

theorem verdicts_plain {line : ReportLine} (plain : line.Plain) (lines : List ReportLine) :
    verdicts (lines ++ [line]) = verdicts lines := by
  rcases plain with ⟨title, rfl⟩ | ⟨total, possible, rfl⟩ <;>
    simp [verdicts, ReportLine.verdict?]

theorem Tallied.print {s : Score σ} (tallied : Tallied s) {line : ReportLine}
    (plain : line.Plain) : Tallied { s with printed := s.printed ++ [line] } := by
  obtain ⟨total, possible, partTotal, partPossible, totalLe, possibleLe, parts⟩ := tallied
  refine ⟨?_, ?_, ?_, ?_, totalLe, possibleLe, parts.concat fun _ _ _ same => ?_⟩
  · rw [verdicts_plain plain, total]
  · rw [verdicts_plain plain, possible]
  · rcases plain with ⟨_, rfl⟩ | ⟨_, _, rfl⟩ <;> simpa [partsEarned] using partTotal
  · rcases plain with ⟨_, rfl⟩ | ⟨_, _, rfl⟩ <;> simpa [partsWorth] using partPossible
  · rcases plain with ⟨_, rfl⟩ | ⟨_, _, rfl⟩ <;> cases same

theorem Tallied.judge {s : Score σ} (tallied : Tallied s) (v : Verdict) :
    Tallied { s with
      total := if v.fail.isSome then s.total else s.total + v.points
      possible := s.possible + v.points
      printed := s.printed ++ [.test v] } := by
  obtain ⟨total, possible, partTotal, partPossible, totalLe, possibleLe, parts⟩ := tallied
  have told : verdicts (s.printed ++ [.test v]) = verdicts s.printed ++ [v] := by
    simp [verdicts, ReportLine.verdict?]
  have adds : (if v.fail.isSome then s.total else s.total + v.points) = s.total + v.earned := by
    rw [Verdict.earned]
    split <;> rfl
  rw [adds]
  refine ⟨?_, ?_, ?_, ?_, Nat.le_add_right_of_le totalLe, Nat.le_add_right_of_le possibleLe,
    parts.concat fun _ _ _ same => nomatch same⟩
  · simp [told, total, earned]
  · simp [told, possible, worth]
  · simpa [partsEarned] using partTotal
  · simpa [partsWorth] using partPossible

theorem showPart_tallied (name : List Char) {s : Score σ} (tallied : Tallied s) :
    Tallied (showPart name s) := by
  obtain ⟨total, possible, partTotal, partPossible, totalLe, possibleLe, parts⟩ := tallied
  have got : s.partTotal + (s.total - s.partTotal) = s.total := by omega
  have all : s.partPossible + (s.possible - s.partPossible) = s.possible := by omega
  have told : verdicts (showPart name s).printed = verdicts s.printed := by
    simp [showPart, verdicts, ReportLine.verdict?]
  refine ⟨?_, ?_, ?_, ?_, Nat.le_refl _, Nat.le_refl _, parts.concat ?_⟩
  · rw [told, ← total]; rfl
  · rw [told, ← possible]; rfl
  · simpa [showPart, partsEarned, partTotal] using got.symm
  · simpa [showPart, partsWorth, partPossible] using all.symm
  · rintro name' total' possible' same
    obtain ⟨-, rfl, rfl⟩ := ReportLine.part.inj same
    exact ⟨by rw [← partTotal, ← total, got], by rw [← partPossible, ← possible, all]⟩

theorem run_tallied (t : RunTest σ) {s : Score σ} (tallied : Tallied s) :
    Tallied (ended (t.run s)).2 := by
  rw [RunTest.run]
  dsimp only
  cases (t.fn s.shared).outcome.fail with
  | error stop => exact (tallied.print (.inl ⟨_, rfl⟩)).share _
  | ok fail =>
    dsimp only
    split <;> exact (tallied.judge ⟨t.title, t.points, fail⟩).share _

theorem act_tallied (reg : Registry σ) {s : Score σ} (tallied : Tallied s) (i : Nat) :
    Tallied (ended (reg.act s i)).2 := by
  rw [Registry.act]
  split
  · exact run_tallied _ tallied
  · exact showPart_tallied _ tallied
  · exact tallied

theorem plan_tallied (reg : Registry σ) (plan : List Nat) {s : Score σ} (tallied : Tallied s) :
    Tallied (ended (plan.foldlM reg.act s)).2 := by
  induction plan generalizing s with
  | nil => exact tallied
  | cons i plan ih =>
    have step := act_tallied reg tallied i
    rw [List.foldlM_cons]
    cases acted : reg.act s i with
    | error e =>
      rw [acted] at step
      exact step
    | ok s' =>
      rw [acted] at step
      exact ih step

/-- The exit status: a `SystemExit` has its own, another exception that gets out of `run_tests`
is a failure, and so is a test with points that has failed. -/
def Trials.status (did : Trials σ) : Nat :=
  match did.stop with
  | some (.systemExit status) => status
  | some .other => 1
  | none | some .keyboardInterrupt =>
    if ∃ v ∈ did.verdicts, v.fail.isSome ∧ 0 < v.points then 1 else 0

theorem finish_report (limit : List (List Char)) {run : Except (Stop × Score σ) (Score σ)}
    {w : σ} {did : Trials σ} (reports : Reports (.start w) run did)
    (tallied : Tallied (ended run).2) :
    let s := (Registry.finish limit run).1
    Tallied s ∧ verdicts s.printed = did.verdicts ∧ s.shared = did.shared ∧
      (Registry.finish limit run).2 = did.status := by
  obtain ⟨stop, shared, told⟩ := reports
  have told : verdicts (ended run).2.printed = did.verdicts := told
  have missing : (ended run).2.total < (ended run).2.possible ↔
      ∃ v ∈ did.verdicts, v.fail.isSome ∧ 0 < v.points := by
    rw [tallied.total, tallied.possible, told, earned_lt_worth]
  rw [Trials.status, ← stop]
  rcases run with ⟨_ | status | _, s⟩ | s
  · exact ⟨tallied, told, shared, by simp only [← missing]; rfl⟩
  · exact ⟨tallied, told, shared, rfl⟩
  · exact ⟨tallied, told, shared, rfl⟩
  · cases limit with
    | nil =>
      have plain : (ReportLine.score s.total s.possible).Plain := .inr ⟨_, _, rfl⟩
      exact ⟨tallied.print plain, (verdicts_plain plain _).trans told, shared,
        by simp only [← missing]; rfl⟩
    | cons l limit => exact ⟨tallied, told, shared, by simp only [← missing]; rfl⟩

/-- What `run_tests` reports is what the tests have done: their verdicts in order, the totals of
these, for each part what came after the part before it, and the exit status. -/
theorem run_tests_report (reg : Registry σ) (lower : List Char → List Char)
    (args : List (List Char)) (w : σ) :
    let did := reg.trials (reg.dependencies.order (reg.selected lower (args.map lower))) w
    let s := (reg.runTests lower args w).1
    verdicts s.printed = did.verdicts ∧ s.shared = did.shared ∧
      s.total = earned did.verdicts ∧ s.possible = worth did.verdicts ∧ PartsAdd s.printed ∧
      (reg.runTests lower args w).2 = did.status := by
  intro did s
  have reports := plan_reports reg (reg.dependencies.order (reg.selected lower (args.map lower)))
    (.start w)
  have held := plan_tallied reg (reg.dependencies.order (reg.selected lower (args.map lower)))
    (start_tallied w)
  rw [← reg.selected_plan] at held reports
  obtain ⟨tallied, told, shared, status⟩ := finish_report (args.map lower) reports held
  exact ⟨told, shared, tallied.total.trans (congrArg earned told),
    tallied.possible.trans (congrArg worth told), tallied.parts, status⟩

end Jos
