import Jos.Kern.Monitor
import Jos.Lib.Compare
import Mathlib.Data.List.Forall2
import Mathlib.Data.List.TakeWhile

/-!
# runcmd splits the command line

The words of a line are its maximal runs of bytes other than whitespace. An argument is
terminated only when the whitespace behind it is gobbled, which happens before the number of
arguments is looked at again.
-/
namespace Jos

open Library

def isSpace (b : UInt8) : Bool := WHITESPACE.contains b

/-- The words of a line that is at `start`, each with the place where it begins. -/
def words (start : Nat) (s : List UInt8) : List (Nat × List UInt8) :=
  match _h : s.dropWhile isSpace with
  | [] => []
  | b :: rest =>
    (start + (s.takeWhile isSpace).length, (b :: rest).takeWhile (!isSpace ·)) ::
      words (start + (s.takeWhile isSpace).length +
        ((b :: rest).takeWhile (!isSpace ·)).length) ((b :: rest).dropWhile (!isSpace ·))
termination_by s.length
decreasing_by
  have kept : isSpace b = false := by
    have first := List.head?_dropWhile_not isSpace s
    simpa [_h] using first
  have shorter : (s.dropWhile isSpace).length ≤ s.length := List.length_dropWhile_le ..
  have rest' : (rest.dropWhile (!isSpace ·)).length ≤ rest.length := List.length_dropWhile_le ..
  rw [_h, List.length_cons] at shorter
  rw [List.dropWhile_cons_of_pos (by simp [kept])]
  omega

/-! ### A line word by word -/

/-- A gap, and the word behind it up to the next gap. -/
structure Begins (gap word rest : List UInt8) : Prop where
  gap : ∀ b ∈ gap, isSpace b = true
  nonempty : word ≠ []
  word : ∀ b ∈ word, isSpace b = false
  rest : ∀ b ∈ rest.head?, isSpace b = true

theorem words_blank (start : Nat) {gap : List UInt8} (blank : ∀ b ∈ gap, isSpace b = true) :
    words start gap = [] := by
  have none : gap.dropWhile isSpace = [] := List.dropWhile_eq_nil_iff.mpr blank
  rw [words]
  split
  · rfl
  · next b rest some => cases none.symm.trans some

theorem words_begins (start : Nat) {gap word rest : List UInt8} (begins : Begins gap word rest) :
    words start (gap ++ (word ++ rest)) =
      (start + gap.length, word) :: words (start + gap.length + word.length) rest := by
  obtain ⟨b, tail, rfl⟩ := List.exists_cons_of_ne_nil begins.nonempty
  have first : isSpace b = false := begins.word b (by simp)
  have own : ∀ c ∈ b :: tail, (!isSpace c) = true := by
    intro c member
    simp [begins.word c member]
  -- the word ends where the next gap begins
  have ended : rest.takeWhile (!isSpace ·) = [] ∧ rest.dropWhile (!isSpace ·) = rest := by
    cases rest with
    | nil => exact ⟨rfl, rfl⟩
    | cons c rest =>
      have space := begins.rest c rfl
      have stops : ¬(!isSpace c) = true := by simp [space]
      exact ⟨List.takeWhile_cons_of_neg stops, List.dropWhile_cons_of_neg stops⟩
  have dropped : (gap ++ (b :: tail ++ rest)).dropWhile isSpace = b :: (tail ++ rest) := by
    rw [List.dropWhile_append_of_pos begins.gap, List.cons_append,
      List.dropWhile_cons_of_neg (by simp [first])]
  have taken : (gap ++ (b :: tail ++ rest)).takeWhile isSpace = gap := by
    rw [List.takeWhile_append_of_pos begins.gap, List.cons_append,
      List.takeWhile_cons_of_neg (by simp [first]), List.append_nil]
  have word : (b :: (tail ++ rest)).takeWhile (!isSpace ·) = b :: tail := by
    rw [← List.cons_append, List.takeWhile_append_of_pos own, ended.1, List.append_nil]
  have left : (b :: (tail ++ rest)).dropWhile (!isSpace ·) = rest := by
    rw [← List.cons_append, List.dropWhile_append_of_pos own, ended.2]
  rw [words]
  split
  · next none => cases dropped.symm.trans none
  · next b' rest' some =>
    obtain ⟨rfl, rfl⟩ := List.cons.inj (dropped.symm.trans some)
    rw [taken, word, left]

/-- Every line is blank or begins with a word. -/
theorem line_induction {motive : List UInt8 → Prop}
    (blank : ∀ gap, (∀ b ∈ gap, isSpace b = true) → motive gap)
    (word : ∀ gap word rest, Begins gap word rest → motive rest → motive (gap ++ (word ++ rest)))
    (s : List UInt8) : motive s := by
  induction length : s.length using Nat.strong_induction_on generalizing s with
  | _ n ih =>
    subst length
    have whole := List.takeWhile_append_dropWhile (p := isSpace) (l := s)
    cases dropped : s.dropWhile isSpace with
    | nil => exact blank s (List.dropWhile_eq_nil_iff.mp dropped)
    | cons b tail =>
      have first : isSpace b = false := by
        have head := List.head?_dropWhile_not isSpace s
        simpa [dropped] using head
      have split := List.takeWhile_append_dropWhile (p := (!isSpace ·)) (l := b :: tail)
      have own : (b :: tail).takeWhile (!isSpace ·) = b :: tail.takeWhile (!isSpace ·) :=
        List.takeWhile_cons_of_pos (by simp [first])
      have begins : Begins (s.takeWhile isSpace) ((b :: tail).takeWhile (!isSpace ·))
          ((b :: tail).dropWhile (!isSpace ·)) := by
        refine ⟨fun c member => List.mem_takeWhile_imp member, by rw [own]; simp, ?_, ?_⟩
        · intro c member
          simpa using List.mem_takeWhile_imp member
        · intro c member
          have head := List.head?_dropWhile_not (!isSpace ·) (b :: tail)
          rw [Option.mem_def.mp member] at head
          simpa using head
      have shorter : ((b :: tail).dropWhile (!isSpace ·)).length < s.length := by
        have lengths := congrArg List.length whole
        have lengths' := congrArg List.length split
        rw [List.length_append, dropped] at lengths
        rw [List.length_append, own, List.length_cons] at lengths'
        omega
      have result := word _ _ _ begins (ih _ shorter _ rfl)
      rwa [split, ← dropped, whole] at result

theorem words_gap (start : Nat) {gap : List UInt8} (blank : ∀ b ∈ gap, isSpace b = true)
    (s : List UInt8) : words start (gap ++ s) = words (start + gap.length) s := by
  induction s using line_induction with
  | blank gap' blank' =>
    rw [words_blank _ blank', words_blank]
    intro b member
    exact (List.mem_append.mp member).elim (blank b) (blank' b)
  | word gap' word rest begins _ =>
    have wider : Begins (gap ++ gap') word rest :=
      ⟨fun b member => (List.mem_append.mp member).elim (blank b) (begins.gap b), begins.nonempty,
        begins.word, begins.rest⟩
    rw [← List.append_assoc, words_begins start wider, words_begins _ begins, List.length_append]
    simp only [Nat.add_assoc]

/-- A line can be cut behind a gap. -/
theorem words_append (start : Nat) {s t : List UInt8} (cut : ∀ b ∈ s.getLast?, isSpace b = true) :
    words start (s ++ t) = words start s ++ words (start + s.length) t := by
  induction s using line_induction generalizing start with
  | blank gap blank => rw [words_gap start blank, words_blank start blank, List.nil_append]
  | word gap word rest begins ih =>
    -- the line ends with a gap, so there is one behind the word
    obtain ⟨b, last⟩ : ∃ b, rest.getLast? = some b := by
      cases rest with
      | nil =>
        obtain ⟨b, last⟩ : ∃ b, word.getLast? = some b :=
          ⟨_, List.getLast?_eq_some_getLast begins.nonempty⟩
        have space := cut b (by simp [last])
        rw [begins.word b (List.mem_of_getLast? last)] at space
        cases space
      | cons c rest => exact ⟨_, List.getLast?_eq_some_getLast (List.cons_ne_nil c rest)⟩
    have later : ∀ b ∈ rest.getLast?, isSpace b = true := by
      intro c member
      exact cut c (by simp [Option.mem_def.mp member])
    have onwards : Begins gap word (rest ++ t) := by
      refine ⟨begins.gap, begins.nonempty, begins.word, ?_⟩
      cases rest with
      | nil => cases last
      | cons c rest => exact begins.rest
    rw [List.append_assoc, List.append_assoc, words_begins start onwards, words_begins start begins,
      ih _ later, List.cons_append, List.length_append, List.length_append]
    simp only [Nat.add_assoc]

/-- The words are the maximal runs, each with its place. -/
theorem mem_words_iff (start place : Nat) (word s : List UInt8) :
    (place, word) ∈ words start s ↔ ∃ before after, s = before ++ (word ++ after) ∧
      place = start + before.length ∧ word ≠ [] ∧ (∀ b ∈ word, isSpace b = false) ∧
      (∀ b ∈ before.getLast?, isSpace b = true) ∧ ∀ b ∈ after.head?, isSpace b = true := by
  constructor
  · intro member
    induction s using line_induction generalizing start with
    | blank gap blank =>
      rw [words_blank start blank] at member
      cases member
    | word gap first rest begins ih =>
      rw [words_begins start begins, List.mem_cons, Prod.mk.injEq] at member
      rcases member with ⟨rfl, rfl⟩ | later
      · exact ⟨gap, rest, rfl, rfl, begins.nonempty, begins.word,
          fun b last => begins.gap b (List.mem_of_getLast? last), begins.rest⟩
      · obtain ⟨before, after, rfl, rfl, nonempty, own, cut, ended⟩ := ih _ later
        refine ⟨gap ++ (first ++ before), after, by simp, ?_, nonempty, own, ?_, ended⟩
        · rw [List.length_append, List.length_append]
          omega
        · -- two words are not next to each other
          intro b last
          cases before with
          | nil =>
            obtain ⟨c, tail, rfl⟩ := List.exists_cons_of_ne_nil nonempty
            have space := begins.rest c rfl
            rw [own c (by simp)] at space
            cases space
          | cons c before =>
            exact cut b (by simpa using last)
  · rintro ⟨before, after, rfl, rfl, nonempty, own, cut, ended⟩
    have begins : Begins [] word after := ⟨by simp, nonempty, own, ended⟩
    have first := words_begins (start + before.length) begins
    rw [List.nil_append] at first
    rw [words_append start cut, first]
    simp

theorem words_noNul {start place : Nat} {word s : List UInt8} (noNul : 0 ∉ s)
    (member : (place, word) ∈ words start s) : 0 ∉ word := by
  obtain ⟨before, after, rfl, -⟩ := (mem_words_iff start place word s).mp member
  exact fun inside => noNul (by simp [inside])

/-- The words come in the order of the line. -/
theorem words_sorted (start : Nat) (s : List UInt8) :
    (words start s).Pairwise fun w w' => w.1 + w.2.length ≤ w'.1 := by
  induction s using line_induction generalizing start with
  | blank gap blank =>
    rw [words_blank start blank]
    exact List.Pairwise.nil
  | word gap word rest begins ih =>
    rw [words_begins start begins]
    refine List.Pairwise.cons ?_ (ih _)
    rintro ⟨place, word'⟩ later
    obtain ⟨before, _, _, rfl, _⟩ := (mem_words_iff _ place word' rest).mp later
    exact Nat.le_add_right _ _

/-! ### The two loops -/

theorem isSpace_zero : isSpace 0 = false := by decide +kernel

theorem whitespace_noNul : 0 ∉ WHITESPACE := by decide +kernel

theorem atSpace_eq (done : List UInt8) (b : UInt8) (rest : List UInt8) (space : Bool) :
    Line.atSpace ⟨done ++ b :: rest, done.length⟩ space =
      .ok (b != 0 && isSpace b == space) := by
  rw [Line.atSpace, readAt_append, Exec.ok_bind]
  by_cases nul : b = 0
  · rw [if_neg (not_not.mpr nul), nul]
    rfl
  · have found : (WHITESPACE.idxOf? b).isSome = isSpace b := by
      rw [Bool.eq_iff_iff, List.isSome_idxOf?]
      simp [isSpace]
    rw [if_pos nul, strchr_terminated whitespace_noNul [], Exec.ok_bind, found]
    simp [nul]

theorem blank_eq (done : List UInt8) (b : UInt8) (rest : List UInt8) :
    Line.blank ⟨done ++ b :: rest, done.length⟩ =
      .ok ⟨(done ++ [0]) ++ rest, (done ++ [0]).length⟩ := by
  have inside : (0 : Int) ≤ (done.length : Int) ∧
      (done.length : Int) < ((done ++ b :: rest).length : Int) := by
    rw [List.length_append, List.length_cons]
    omega
  rw [Line.blank, writeAt, if_pos inside, Exec.ok_bind]
  simp

/-- The byte that ends a word or the line. -/
def Stops (space : Bool) (rest : List UInt8) : Prop :=
  ∃ b tail, rest = b :: tail ∧ (b = 0 ∨ isSpace b ≠ space)

/-- Both loops run over bytes of one kind, and turn each into `f` of it. -/
theorem run_loop {space : Bool} {body : Line → Exec Line} {f : UInt8 → UInt8}
    (step : ∀ done b rest, body ⟨done ++ b :: rest, done.length⟩ =
      .ok ⟨(done ++ [f b]) ++ rest, (done ++ [f b]).length⟩)
    {run : List UInt8} (own : ∀ b ∈ run, b ≠ 0 ∧ isSpace b = space) {rest : List UInt8}
    (stops : Stops space rest) (done : List UInt8) (fuel : Nat) (enough : run.length < fuel) :
    whileLoop (·.atSpace space) body fuel ⟨done ++ (run ++ rest), done.length⟩ =
      .ok ⟨done ++ (run.map f ++ rest), done.length + run.length⟩ := by
  obtain ⟨fuel, rfl⟩ := Nat.exists_eq_succ_of_ne_zero (Nat.ne_of_gt (Nat.zero_lt_of_lt enough))
  induction run generalizing done fuel with
  | nil =>
    obtain ⟨b, tail, rfl, ended⟩ := stops
    have test : (b != 0 && isSpace b == space) = false := by
      rcases ended with rfl | other
      · rfl
      · simp [other]
    rw [List.nil_append, whileLoop, atSpace_eq, test]
    rfl
  | cons b run ih =>
    obtain ⟨nonzero, same⟩ := own b (by simp)
    obtain ⟨fuel, rfl⟩ := Nat.exists_eq_succ_of_ne_zero
      (Nat.ne_of_gt (Nat.zero_lt_of_lt (Nat.lt_of_succ_lt_succ enough)))
    have later := ih (fun c member => own c (by simp [member])) (done ++ [f b]) fuel
      (Nat.lt_of_succ_lt_succ enough)
    have test : (b != 0 && isSpace b == space) = true := by simp [nonzero, same]
    rw [List.cons_append, Nat.succ_eq_add_one, whileLoop, atSpace_eq, test, Exec.ok_bind,
      if_pos rfl, step, Exec.ok_bind]
    refine later.trans ?_
    rw [List.append_assoc, List.length_append, List.length_singleton, List.length_cons,
      Nat.add_assoc, Nat.add_comm 1]
    rfl

theorem gobble_loop {gap : List UInt8} (blank : ∀ b ∈ gap, isSpace b = true) {rest : List UInt8}
    (stops : Stops true rest) (done : List UInt8) (fuel : Nat) (enough : gap.length < fuel) :
    whileLoop (·.atSpace true) Line.blank fuel ⟨done ++ (gap ++ rest), done.length⟩ =
      .ok ⟨done ++ (List.replicate gap.length 0 ++ rest), done.length + gap.length⟩ := by
  have own : ∀ b ∈ gap, b ≠ 0 ∧ isSpace b = true := by
    intro b member
    refine ⟨?_, blank b member⟩
    rintro rfl
    exact absurd (blank 0 member) (by rw [isSpace_zero]; decide)
  rw [run_loop (f := fun _ => 0) blank_eq own stops done fuel enough, List.map_const']

theorem scan_loop {word : List UInt8} (own : ∀ b ∈ word, b ≠ 0 ∧ isSpace b = false)
    {rest : List UInt8} (stops : Stops false rest) (done : List UInt8) (fuel : Nat)
    (enough : word.length < fuel) :
    whileLoop (fun l : Line => l.atSpace false) (fun l => pure { l with pos := l.pos + 1 }) fuel
        ⟨done ++ (word ++ rest), done.length⟩ =
      .ok ⟨done ++ (word ++ rest), done.length + word.length⟩ := by
  have step : ∀ (done : List UInt8) (b : UInt8) (rest : List UInt8),
      (pure ⟨done ++ b :: rest, done.length + 1⟩ : Exec Line) =
        .ok ⟨(done ++ [id b]) ++ rest, (done ++ [id b]).length⟩ := by
    intro done b rest
    simp
  rw [run_loop step own stops done fuel enough, List.map_id]

/-! ### The arguments -/

/-- A byte once the whitespace has been gobbled. -/
def cleared (b : UInt8) : UInt8 := if isSpace b then 0 else b

theorem map_cleared_gap {gap : List UInt8} (blank : ∀ b ∈ gap, isSpace b = true) :
    gap.map cleared = List.replicate gap.length 0 := by
  rw [List.map_eq_replicate_iff]
  intro b member
  exact if_pos (blank b member)

theorem map_cleared_word {word : List UInt8} (own : ∀ b ∈ word, isSpace b = false) :
    word.map cleared = word := by
  conv_rhs => rw [← List.map_id word]
  refine List.map_congr_left fun b member => ?_
  rw [cleared, own b member]
  rfl

/-- The loop has written the places of these words from index `argc` on. -/
structure Filled (argv argv' : List (Option Nat)) (argc : Nat) (ws : List (Nat × List UInt8)) :
    Prop where
  length : argv'.length = argv.length
  earlier : ∀ j < argc, argv'[j]? = argv[j]?
  places : ∀ i place word, ws[i]? = some (place, word) → argv'[argc + i]? = some (some place)

theorem Filled.nil (argv : List (Option Nat)) (argc : Nat) : Filled argv argv argc [] :=
  ⟨rfl, fun _ _ => rfl, fun _ _ _ some => by simp at some⟩

theorem Filled.cons {argv argv' : List (Option Nat)} {argc place : Nat} {word : List UInt8}
    {ws : List (Nat × List UInt8)} (inside : argc < argv.length)
    (filled : Filled (argv.set argc (some place)) argv' (argc + 1) ws) :
    Filled argv argv' argc ((place, word) :: ws) := by
  obtain ⟨length, earlier, places⟩ := filled
  refine ⟨by rw [length, List.length_set], ?_, ?_⟩
  · intro j before
    rw [earlier j (by omega), List.getElem?_set_ne (by omega)]
  · intro i place' word' some
    cases i with
    | zero =>
      obtain ⟨rfl, rfl⟩ : place = place' ∧ word = word' := by simpa using some
      rw [Nat.add_zero, earlier argc (by omega), List.getElem?_set_self inside]
    | succ i =>
      have here := places i place' word' (by simpa using some)
      rwa [Nat.add_assoc, Nat.add_comm 1] at here

/-- The null pointer behind the arguments leaves them in place. -/
theorem Filled.stored {argv argv' : List (Option Nat)} {ws : List (Nat × List UInt8)}
    (filled : Filled argv argv' 0 ws) (i start : Nat) (word : List UInt8)
    (here : ws[i]? = some (start, word)) : (argv'.set ws.length none)[i]? = some (some start) := by
  obtain ⟨below, -⟩ := List.getElem?_eq_some_iff.mp here
  have place := filled.places i start word here
  rw [Nat.zero_add] at place
  rw [List.getElem?_set_ne (Nat.ne_of_gt below), place]

section Parse

variable {gap word rest : List UInt8} (begins : Begins gap word rest)
  (noNul : 0 ∉ gap ++ (word ++ rest)) (done tail : List UInt8)
include begins noNul

/-- What the loop sees behind a gap. -/
theorem gobble_word : ∃ b, gobble ⟨done ++ (gap ++ (word ++ rest) ++ 0 :: tail), done.length⟩ =
      .ok ⟨done ++ gap.map cleared ++ (word ++ (rest ++ 0 :: tail)),
        (done ++ gap.map cleared).length⟩ ∧
    readAt (done ++ gap.map cleared ++ (word ++ (rest ++ 0 :: tail)))
      ((done ++ gap.map cleared).length : Nat) = .ok b ∧ b ≠ 0 := by
  obtain ⟨b, letters, rfl⟩ := List.exists_cons_of_ne_nil begins.nonempty
  have other := begins.word b (by simp)
  have stops : Stops true (b :: letters ++ (rest ++ 0 :: tail)) :=
    ⟨b, _, rfl, .inr (by simp [other])⟩
  have ran := gobble_loop begins.gap stops done
    ((done ++ (gap ++ (b :: letters ++ (rest ++ 0 :: tail)))).length + 1) (by simp; omega)
  refine ⟨b, ?_, readAt_append .., ?_⟩
  · rw [gobble, List.append_assoc gap, List.append_assoc (b :: letters), ran,
      ← map_cleared_gap begins.gap, List.append_assoc, List.length_append, List.length_map]
  · rintro rfl
    simp at noNul

theorem scanPast_word (before : List UInt8) :
    scanPast ⟨before ++ (word ++ (rest ++ 0 :: tail)), before.length⟩ =
      .ok ⟨before ++ word ++ (rest ++ 0 :: tail), (before ++ word).length⟩ := by
  have own : ∀ b ∈ word, b ≠ 0 ∧ isSpace b = false := by
    intro b member
    refine ⟨?_, begins.word b member⟩
    rintro rfl
    simp [member] at noNul
  have stops : Stops false (rest ++ 0 :: tail) := by
    cases rest with
    | nil => exact ⟨0, tail, rfl, .inl rfl⟩
    | cons c rest => exact ⟨c, _, rfl, .inr (by simp [begins.rest c rfl])⟩
  have ran := scan_loop own stops before
    ((before ++ (word ++ (rest ++ 0 :: tail))).length + 1) (by simp; omega)
  rw [scanPast, ran, List.append_assoc, List.length_append]

/-- A word is one argument more. -/
theorem parseArgs_word (fuel : Nat) {argc : Nat} {argv : List (Option Nat)}
    (slots : argv.length = MAXARGS) (free : argc < MAXARGS - 1) :
    parseArgs (fuel + 1)
        ⟨⟨done ++ (gap ++ (word ++ rest) ++ 0 :: tail), done.length⟩, argc, argv⟩ =
      parseArgs fuel ⟨⟨done ++ gap.map cleared ++ word ++ (rest ++ 0 :: tail),
        (done ++ gap.map cleared ++ word).length⟩, argc + 1,
        argv.set argc (some (done.length + gap.length))⟩ := by
  have size : MAXARGS = 16 := rfl
  have inside : (0 : Int) ≤ (argc : Int) ∧ (argc : Int) < (argv.length : Int) := by omega
  have place : (done ++ gap.map cleared).length = done.length + gap.length := by simp
  obtain ⟨b, gobbled, read, nonzero⟩ := gobble_word begins noNul done tail
  rw [parseArgs, gobbled, Exec.ok_bind, read, Exec.ok_bind, if_neg nonzero,
    if_neg (Nat.ne_of_lt free), writeAt, if_pos inside, Exec.ok_bind, scanPast_word begins noNul,
    Exec.ok_bind, place]
  rfl

/-- But not the sixteenth. -/
theorem parseArgs_full (fuel : Nat) (argv : List (Option Nat)) :
    parseArgs (fuel + 1)
        ⟨⟨done ++ (gap ++ (word ++ rest) ++ 0 :: tail), done.length⟩, MAXARGS - 1, argv⟩ =
      .ok (.tooMany ⟨⟨done ++ (gap.map cleared ++ (word ++ rest ++ 0 :: tail)),
        (done ++ gap.map cleared).length⟩, MAXARGS - 1, argv⟩) := by
  obtain ⟨b, gobbled, read, nonzero⟩ := gobble_word begins noNul done tail
  rw [parseArgs, gobbled, Exec.ok_bind, read, Exec.ok_bind, if_neg nonzero, if_pos rfl,
    List.append_assoc, List.append_assoc word]
  rfl

end Parse

theorem parseArgs_blank {gap : List UInt8} (blank : ∀ b ∈ gap, isSpace b = true)
    (done tail : List UInt8) (fuel argc : Nat) (argv : List (Option Nat)) :
    parseArgs (fuel + 1) ⟨⟨done ++ (gap ++ 0 :: tail), done.length⟩, argc, argv⟩ =
      .ok (.args ⟨⟨done ++ (gap.map cleared ++ 0 :: tail), done.length + gap.length⟩, argc,
        argv⟩) := by
  have stops : Stops true (0 :: tail) := ⟨0, tail, rfl, .inl rfl⟩
  have ran := gobble_loop blank stops done ((done ++ (gap ++ 0 :: tail)).length + 1)
    (by simp; omega)
  have nul : readAt (done ++ (List.replicate gap.length 0 ++ 0 :: tail))
      ((done.length + gap.length : Nat) : Int) = .ok 0 := by
    have there := readAt_append (done ++ List.replicate gap.length 0) (0 : UInt8) tail
    rwa [List.append_assoc, List.length_append, List.length_replicate] at there
  rw [parseArgs, gobble, ran, Exec.ok_bind]
  dsimp only
  rw [nul, Exec.ok_bind, if_pos rfl, map_cleared_gap blank]
  rfl

/-- All words are arguments if there is room for them; the loop stops in front of the first one
for which there is none. -/
theorem parseArgs_words (s : List UInt8) (noNul : 0 ∉ s) (done tail : List UInt8) (argc : Nat)
    (argv : List (Option Nat)) (slots : argv.length = MAXARGS) (few : argc ≤ MAXARGS - 1)
    (fuel : Nat) (enough : MAXARGS ≤ fuel + argc) :
    (argc + (words done.length s).length ≤ MAXARGS - 1 → ∃ argv',
      parseArgs fuel ⟨⟨done ++ (s ++ 0 :: tail), done.length⟩, argc, argv⟩ =
        .ok (.args ⟨⟨done ++ (s.map cleared ++ 0 :: tail), done.length + s.length⟩,
          argc + (words done.length s).length, argv'⟩) ∧
      Filled argv argv' argc (words done.length s)) ∧
    (MAXARGS ≤ argc + (words done.length s).length → ∃ p q pos argv', s = p ++ q ∧
      parseArgs fuel ⟨⟨done ++ (s ++ 0 :: tail), done.length⟩, argc, argv⟩ =
        .ok (.tooMany ⟨⟨done ++ (p.map cleared ++ (q ++ 0 :: tail)), pos⟩, MAXARGS - 1, argv'⟩) ∧
      argv'.length = MAXARGS) := by
  have size : MAXARGS = 16 := rfl
  obtain ⟨fuel, rfl⟩ : ∃ n, fuel = n + 1 := ⟨fuel - 1, by omega⟩
  induction s using line_induction generalizing done argc argv fuel with
  | blank gap blank =>
    rw [words_blank _ blank]
    refine ⟨fun _ => ⟨argv, parseArgs_blank blank done tail fuel argc argv, .nil argv argc⟩,
      fun many => ?_⟩
    rw [List.length_nil] at many
    omega
  | word gap word rest begins ih =>
    have onwards : (done ++ gap.map cleared ++ word).length =
        done.length + gap.length + word.length := by simp [Nat.add_assoc]
    rw [words_begins _ begins, List.length_cons]
    rcases Nat.eq_or_lt_of_le few with rfl | free
    · exact ⟨fun fits => absurd fits (by omega), fun _ => ⟨gap, word ++ rest, _, argv, rfl,
        parseArgs_full begins noNul done tail fuel argv, slots⟩⟩
    · have later : 0 ∉ rest := fun member => noNul (by simp [member])
      obtain ⟨fuel, rfl⟩ : ∃ n, fuel = n + 1 := ⟨fuel - 1, by omega⟩
      obtain ⟨args, tooMany⟩ := ih later (done ++ gap.map cleared ++ word) (argc + 1)
        (argv.set argc (some (done.length + gap.length))) (by rw [List.length_set, slots])
        (by omega) fuel (by omega)
      rw [onwards] at args tooMany
      rw [parseArgs_word begins noNul done tail (fuel + 1) slots free, onwards]
      refine ⟨fun fits => ?_, fun many => ?_⟩
      · obtain ⟨argv', returned, filled⟩ := args (by omega)
        refine ⟨argv', ?_, filled.cons (by omega)⟩
        rw [returned]
        simp only [List.map_append, map_cleared_word begins.word, List.append_assoc,
          List.length_append, Nat.add_assoc, Nat.add_comm 1]
      · obtain ⟨p, q, pos, argv', rfl, returned, length⟩ := tooMany (by omega)
        refine ⟨gap ++ (word ++ p), q, pos, argv', by simp, ?_, length⟩
        rw [returned]
        simp only [List.map_append, map_cleared_word begins.word, List.append_assoc]

/-! ### The command -/

theorem commands_noNul : ∀ command ∈ commands, 0 ∉ command.name := by decide +kernel

theorem lookup_terminated {name : List UInt8} (noNul : 0 ∉ name) (rest : List UInt8)
    (cs : List Command) (csNoNul : ∀ command ∈ cs, 0 ∉ command.name) :
    lookup (name ++ 0 :: rest) cs =
      .ok ((cs.find? fun command => decide (command.name = name)).map Command.func) := by
  induction cs with
  | nil => rfl
  | cons command cs ih =>
    obtain ⟨r, compared, equal⟩ := strcmp_terminated noNul (csNoNul command (by simp)) rest []
    have later := ih fun other member => csNoNul other (by simp [member])
    rw [lookup, compared, Exec.ok_bind, List.find?_cons]
    by_cases same : command.name = name
    · rw [if_pos (equal.mpr same.symm), decide_eq_true same]
      rfl
    · rw [if_neg (fun zero => same (equal.mp zero).symm), decide_eq_false same, later]

/-- The buffer has changed only where whitespace was turned into NUL. -/
def SpacesCleared (buf buf' : List UInt8) : Prop :=
  List.Forall₂ (fun b b' => b' = b ∨ isSpace b = true ∧ b' = 0) buf buf'

theorem spacesCleared_prefix (p q : List UInt8) : SpacesCleared (p ++ q) (p.map cleared ++ q) := by
  refine List.rel_append ?_ (List.forall₂_same.mpr fun b _ => .inl rfl)
  refine List.forall₂_map_right_iff.mpr (List.forall₂_same.mpr fun b _ => ?_)
  by_cases space : isSpace b = true
  · exact .inr ⟨space, if_pos space⟩
  · exact .inl (if_neg space)

/-- A word is terminated once the whitespace behind it has been gobbled. -/
theorem drop_cleared (s tail : List UInt8) {start : Nat} {word : List UInt8}
    (member : (start, word) ∈ words 0 s) :
    ∃ rest, (s.map cleared ++ 0 :: tail).drop start = word ++ 0 :: rest := by
  obtain ⟨before, after, rfl, rfl, -, own, -, ended⟩ := (mem_words_iff 0 start word s).mp member
  have dropped : (((before ++ (word ++ after)).map cleared) ++ 0 :: tail).drop (0 + before.length) =
      word ++ (after.map cleared ++ 0 :: tail) := by
    rw [List.map_append, List.map_append, map_cleared_word own, List.append_assoc,
      List.append_assoc, Nat.zero_add]
    exact List.drop_left' (List.length_map _)
  rw [dropped]
  cases after with
  | nil => exact ⟨tail, rfl⟩
  | cons b after =>
    have nul : cleared b = 0 := if_pos (ended b rfl)
    exact ⟨after.map cleared ++ 0 :: tail, by rw [List.map_cons, nul, List.cons_append]⟩

/-- What `runcmd` does with a line that has these words. -/
structure Splits (addr : BitVec 32) (ws : List (Nat × List UInt8)) (ran : Ran) : Prop where
  argc : ran.argc = ws.length
  argv : ∀ (i start : Nat) (word : List UInt8), ws[i]? = some (start, word) →
    ran.argv[i]? = some (some start) ∧ ∃ rest, ran.buf.drop start = word ++ 0 :: rest
  last : ran.argv[ws.length]? = some none
  call : ∀ (start : Nat) (word : List UInt8), ws[0]? = some (start, word) →
    ran.call = (commands.find? fun command => decide (command.name = word)).map Command.func
  unknown : ∀ (start : Nat) (word : List UInt8), ws[0]? = some (start, word) → ran.printed =
    if ran.call = none then
      [⟨literal "Unknown command '%s'\n", [.ptr (addr + .ofNat 32 start) (ran.buf.drop start)]⟩]
    else []

theorem dispatch_none (addr : BitVec 32) (line : Line) {argv : List (Option Nat)}
    (slots : argv.length = MAXARGS) : ∃ ran, dispatch addr ⟨line, 0, argv⟩ = .ok ran ∧
      ran.argv.length = MAXARGS ∧ ran.buf = line.buf ∧ ran.call = none := by
  have room : (0 : Int) ≤ ((0 : Nat) : Int) ∧ ((0 : Nat) : Int) < (argv.length : Int) := by
    rw [slots]
    decide
  refine ⟨⟨line.buf, 0, argv.set 0 none, [], none⟩, ?_, by rw [List.length_set, slots], rfl, rfl⟩
  rw [dispatch, writeAt, if_pos room]
  rfl

theorem dispatch_splits (addr : BitVec 32) (s tail : List UInt8) (noNul : 0 ∉ s) (pos : Nat)
    {argv argv' : List (Option Nat)} (filled : Filled argv argv' 0 (words 0 s))
    (slots : argv.length = MAXARGS) (nonempty : 0 < (words 0 s).length)
    (few : (words 0 s).length < MAXARGS) :
    ∃ ran, dispatch addr ⟨⟨s.map cleared ++ 0 :: tail, pos⟩, (words 0 s).length, argv'⟩ = .ok ran ∧
      ran.argv.length = MAXARGS ∧ ran.buf = s.map cleared ++ 0 :: tail ∧
      Splits addr (words 0 s) ran := by
  obtain ⟨⟨start, word⟩, ws, split⟩ := List.exists_cons_of_length_pos nonempty
  have first : (words 0 s)[0]? = some (start, word) := by rw [split]; rfl
  have only : ∀ start' word', (words 0 s)[0]? = some (start', word') →
      start = start' ∧ word = word' := by
    intro start' word' here
    exact Prod.mk.inj (Option.some.inj (first.symm.trans here))
  have room : (0 : Int) ≤ ((words 0 s).length : Int) ∧
      ((words 0 s).length : Int) < (argv'.length : Int) := by
    rw [filled.length, slots]
    omega
  have length : (argv'.set (words 0 s).length none).length = MAXARGS := by
    rw [List.length_set, filled.length, slots]
  have places : ∀ (i start : Nat) (word : List UInt8), (words 0 s)[i]? = some (start, word) →
      (argv'.set (words 0 s).length none)[i]? = some (some start) ∧
        ∃ rest, (s.map cleared ++ 0 :: tail).drop start = word ++ 0 :: rest :=
    fun i start word here =>
      ⟨filled.stored i start word here, drop_cleared s tail (List.mem_of_getElem? here)⟩
  have last : (argv'.set (words 0 s).length none)[(words 0 s).length]? = some none :=
    List.getElem?_set_self (Int.ofNat_lt.mp room.2)
  -- what the first argument reads as is looked up
  obtain ⟨pointer, rest, reads⟩ := places 0 start word first
  have read : readAt (argv'.set (words 0 s).length none) 0 = .ok (some start) :=
    readAt_eq_ok_iff.mpr ⟨Int.le_refl 0, pointer⟩
  have looked := lookup_terminated (words_noNul noNul (List.mem_of_getElem? first)) rest commands
    commands_noNul
  rw [← reads] at looked
  rw [dispatch, writeAt, if_pos room, Exec.ok_bind]
  dsimp only
  rw [if_neg (Nat.ne_of_gt nonempty), Int.toNat_natCast, read, Exec.ok_bind]
  dsimp only
  rw [looked, Exec.ok_bind]
  have call : ∀ start' word', (words 0 s)[0]? = some (start', word') →
      (commands.find? fun command => decide (command.name = word)).map Command.func =
        (commands.find? fun command => decide (command.name = word')).map Command.func := by
    intro start' word' here
    rw [(only start' word' here).2]
  cases found : (commands.find? fun command => decide (command.name = word)).map Command.func with
  | some func =>
    rw [found] at call
    exact ⟨_, rfl, length, rfl, rfl, places, last, call, fun _ _ _ => rfl⟩
  | none =>
    rw [found] at call
    refine ⟨_, rfl, length, rfl, rfl, places, last, call, ?_⟩
    intro start' word' here
    obtain ⟨rfl, -⟩ := only start' word' here
    rfl

theorem runcmd_splits (addr : BitVec 32) (line : CString) (tail : List UInt8)
    (argv : Fin MAXARGS → Option Nat) :
    ∃ ran, runcmd addr (line.bytes ++ 0 :: tail) (List.ofFn argv) = .ok ran ∧
      ran.argv.length = MAXARGS ∧ SpacesCleared (line.bytes ++ 0 :: tail) ran.buf ∧
      (1 ≤ (words 0 line.bytes).length ∧ (words 0 line.bytes).length ≤ MAXARGS - 1 →
        Splits addr (words 0 line.bytes) ran) ∧
      ((words 0 line.bytes).length = 0 ∨ MAXARGS ≤ (words 0 line.bytes).length →
        ran.call = none) := by
  have size : MAXARGS = 16 := rfl
  have started : writeAt (List.ofFn argv) 0 none = .ok ((List.ofFn argv).set 0 none) :=
    if_pos (by rw [List.length_ofFn, size]; decide)
  have slots : ((List.ofFn argv).set 0 none).length = MAXARGS := by
    rw [List.length_set, List.length_ofFn]
  obtain ⟨args, tooMany⟩ := parseArgs_words line.bytes line.noNul [] tail 0 _ slots (Nat.zero_le _)
    (MAXARGS + 1) (Nat.le_succ _)
  simp only [List.nil_append, List.length_nil, Nat.zero_add] at args tooMany
  rw [runcmd, started, Exec.ok_bind]
  rcases Nat.lt_or_ge (words 0 line.bytes).length MAXARGS with few | many
  · obtain ⟨argv', parsed, filled⟩ := args (Nat.le_pred_of_lt few)
    have spaces := spacesCleared_prefix line.bytes (0 :: tail)
    rw [parsed, Exec.ok_bind]
    rcases Nat.eq_zero_or_pos (words 0 line.bytes).length with zero | some
    · obtain ⟨ran, returned, length, buf, call⟩ := dispatch_none addr
        ⟨line.bytes.map cleared ++ 0 :: tail, line.bytes.length⟩ (filled.length.trans slots)
      rw [zero]
      exact ⟨ran, returned, length, buf ▸ spaces, fun fits => absurd fits.1 (by decide),
        fun _ => call⟩
    · obtain ⟨ran, returned, length, buf, splits⟩ := dispatch_splits addr line.bytes tail line.noNul
        line.bytes.length filled slots some few
      exact ⟨ran, returned, length, buf ▸ spaces, fun _ => splits,
        fun other => absurd other (by omega)⟩
  · obtain ⟨p, q, pos, argv', split, parsed, length⟩ := tooMany many
    have spaces := spacesCleared_prefix p (q ++ 0 :: tail)
    rw [← List.append_assoc, ← split] at spaces
    rw [parsed]
    exact ⟨_, rfl, length, spaces, fun fits => absurd fits.2 (by omega), fun _ => rfl⟩

end Jos
