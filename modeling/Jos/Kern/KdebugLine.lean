import Jos.Kern.KdebugLookup

/-!
# The line number that debuginfo_eip returns

The result of the line search is not looked at: `debuginfo_eip` returns the `n_desc` of whatever
stab the search leaves at the left end of its region.
-/
namespace Jos

open Library

/-- Stab `i` is a line stab of that number inside `[lo, hi)`. -/
def LineIn (stabs : List Stab) (lo hi : Nat) (number : Nat) : Prop :=
  ∃ i s, lo ≤ i ∧ i < hi ∧ stabs[i]? = some s ∧ s.type = N_SLINE ∧ s.nDesc.toNat = number

/-- Success means a line stab of the range that has been searched for the line, and a range
without line stabs means a negative result. -/
def SucceedsWithLine (stabs : List Stab) (stabstr : List UInt8) (addr : UInt32) : Prop :=
  ∀ result info, debuginfoEip stabs stabstr addr = .ok (result, info) →
    (result = 0 → ∃ f fEnd g gEnd fn number, LineRange stabs addr f fEnd g gEnd fn ∧
      LineIn stabs g gEnd number ∧ info.eipLine = number) ∧
    ∀ f fEnd g gEnd fn, LineRange stabs addr f fEnd g gEnd fn →
      (∀ number, ¬LineIn stabs g gEnd number) → result < 0

/-- Where the line search ends on no line stab that it has met, the stab on which it ends has the
number of a line stab in its range. -/
def UnmetHasLine (stabs : List Stab) (addr : UInt32) : Prop :=
  ∀ f fEnd g gEnd fn, LineRange stabs addr f fEnd g gEnd fn →
    ∀ i s, Unmet (stabKey stabs N_SLINE) g ((gEnd : Int) - 1) (lineAddr addr fn g gEnd) i →
      readAt stabs i = .ok s → LineIn stabs g gEnd s.nDesc.toNat

section LineRange

variable {stabs : List Stab} {addr : UInt32} {f fEnd g gEnd k kEnd : Nat} {fn line : Stab}

/-- Where the line search ends when it has met no line stab that it could end on. -/
theorem LineRange.unmet (range : LineRange stabs addr f fEnd g gEnd fn) {i : Int}
    (unmet : Unmet (stabKey stabs N_SLINE) g ((gEnd : Int) - 1) (lineAddr addr fn g gEnd) i) :
    ∃ right, stabBinsearch stabs g ((gEnd : Int) - 1) N_SLINE (lineAddr addr fn g gEnd) =
      .ok (i, right) := by
  obtain ⟨_, high, _, ordered, within, _⟩ := range.bounds
  exact stabBinsearch_unmet (by omega) (by omega) (by omega) unmet

/-- Otherwise it ends on a line stab of its range. -/
theorem Searches.met (searches : Searches stabs addr f fEnd g gEnd k kEnd fn line)
    (met : ∀ i, ¬Unmet (stabKey stabs N_SLINE) g ((gEnd : Int) - 1) (lineAddr addr fn g gEnd) i) :
    LineIn stabs g gEnd line.nDesc.toNat := by
  obtain ⟨_, high, _, ordered, within, _⟩ := searches.toLineRange.bounds
  obtain ⟨left, right, ended, above, below, typed⟩ :=
    stabBinsearch_met (by omega) (by omega) (by omega) met
  rw [searches.lines, Except.ok.injEq, Prod.mk.injEq] at ended
  obtain ⟨rfl, _⟩ := ended
  obtain ⟨v, key⟩ := Option.ne_none_iff_exists'.mp typed
  obtain ⟨s, read, same, _⟩ := stabKey_eq_some_iff.mp key
  rw [readAt_natCast_iff, searches.readLine, Option.some.injEq] at read
  exact ⟨k, line, by omega, by omega, searches.readLine, read ▸ same, rfl⟩

/-- The number that is returned is that of a line stab in the range exactly when it is so where
the search has met none. -/
theorem Searches.lineIn_iff (searches : Searches stabs addr f fEnd g gEnd k kEnd fn line) :
    LineIn stabs g gEnd line.nDesc.toNat ↔
      ∀ i s, Unmet (stabKey stabs N_SLINE) g ((gEnd : Int) - 1) (lineAddr addr fn g gEnd) i →
        readAt stabs i = .ok s → LineIn stabs g gEnd s.nDesc.toNat := by
  have endsAt : ∀ i, Unmet (stabKey stabs N_SLINE) g ((gEnd : Int) - 1)
      (lineAddr addr fn g gEnd) i → (k : Int) = i := by
    intro i unmet
    obtain ⟨right, ended⟩ := searches.toLineRange.unmet unmet
    rw [searches.lines, Except.ok.injEq, Prod.mk.injEq] at ended
    exact ended.1
  constructor
  · intro number i s unmet read
    rw [← endsAt i unmet, readAt_natCast_iff, searches.readLine, Option.some.injEq] at read
    rwa [← read]
  · intro unmetHasLine
    by_cases met : ∀ i, ¬Unmet (stabKey stabs N_SLINE) g ((gEnd : Int) - 1)
        (lineAddr addr fn g gEnd) i
    · exact searches.met met
    · obtain ⟨i, unmet⟩ := not_forall_not.mp met
      exact unmetHasLine i line unmet
        (by rw [← endsAt i unmet, readAt_natCast_iff, searches.readLine])

/-- Once there is a range for the line search, success is a matter of where that search ends. -/
theorem LineRange.succeeds_iff {stabstr : List UInt8} (kernel : ULIM ≤ addr)
    (terminated : stabstr.getLast? = some 0) (range : LineRange stabs addr f fEnd g gEnd fn) :
    SucceedsWithLine stabs stabstr addr ↔
      ∀ i s, Unmet (stabKey stabs N_SLINE) g ((gEnd : Int) - 1) (lineAddr addr fn g gEnd) i →
        readAt stabs i = .ok s → LineIn stabs g gEnd s.nDesc.toNat := by
  obtain ⟨left, right, lines, _⟩ := range.lineSearch
  by_cases negative : left < 0
  · -- the lookup leaves the table, and so does every stab on which the search could end
    have fault := range.faults kernel terminated lines negative
    constructor
    · intro _ i s unmet read
      obtain ⟨right', ended⟩ := range.unmet unmet
      rw [lines, Except.ok.injEq, Prod.mk.injEq] at ended
      have nonneg := (readAt_eq_ok_iff.mp read).1
      omega
    · intro _ result info returned
      rw [fault] at returned
      cases returned
  · obtain ⟨k, kEnd, line, _, _, searches⟩ := range.searches lines (by omega)
    rw [← searches.lineIn_iff]
    have returned := searches.returned kernel terminated
    constructor
    · intro succeeds
      obtain ⟨found, _⟩ := succeeds 0 _ returned
      obtain ⟨f', fEnd', g', gEnd', fn', number, other, lineIn, same⟩ := found rfl
      obtain ⟨rfl, rfl, rfl, rfl, rfl⟩ := range.unique other
      have value : line.nDesc.toNat = number := Int.ofNat.inj same
      rwa [value]
    · intro lineIn result info returned'
      rw [returned, Except.ok.injEq, Prod.mk.injEq] at returned'
      obtain ⟨rfl, rfl⟩ := returned'
      refine ⟨fun _ => ⟨f, fEnd, g, gEnd, fn, _, range, lineIn, rfl⟩, ?_⟩
      intro f' fEnd' g' gEnd' fn' other none
      obtain ⟨rfl, rfl, rfl, rfl, rfl⟩ := range.unique other
      exact absurd lineIn (none _)

end LineRange

/-- `debuginfo_eip` succeeds only with the number of a line stab, exactly when the string table
is refused or the line search ends on such a number even where it has met no line stab. -/
theorem succeedsWithLine_iff (stabs : List Stab) (stabstr : List UInt8) (addr : UInt32)
    (kernel : ULIM ≤ addr) :
    SucceedsWithLine stabs stabstr addr ↔
      stabstr.getLast? ≠ some 0 ∨ UnmetHasLine stabs addr := by
  by_cases terminated : stabstr.getLast? = some 0
  · simp only [terminated, ne_eq, not_true_eq_false, false_or]
    rcases lineRange_cases stabs addr with ⟨rfile, file⟩ | ⟨_, rfile, file⟩ | ⟨f, fEnd, g, gEnd, fn, range⟩
    · -- no file: the result is negative, and no line is searched for
      have none : ∀ f fEnd g gEnd fn, ¬LineRange stabs addr f fEnd g gEnd fn := by
        intro f fEnd g gEnd fn range
        have same := file.symm.trans range.file
        simp only [Except.ok.injEq, Prod.mk.injEq] at same
        have := range.proper
        omega
      refine ⟨fun _ f fEnd g gEnd fn range => absurd range (none f fEnd g gEnd fn), ?_⟩
      intro _ result info returned
      rw [debuginfoEip_noFile kernel terminated file] at returned
      cases returned
      exact ⟨fun zero => absurd zero (by decide), fun f fEnd g gEnd fn range =>
        absurd range (none f fEnd g gEnd fn)⟩
    · have fault := fileSearch_faults kernel terminated file
      refine ⟨fun _ f fEnd g gEnd fn range => ?_, fun _ result info returned => ?_⟩
      · have same := file.symm.trans range.file
        simp only [Except.ok.injEq, Prod.mk.injEq] at same
        omega
      · rw [fault] at returned
        cases returned
    · rw [range.succeeds_iff kernel terminated]
      constructor
      · intro here f' fEnd' g' gEnd' fn' other
        obtain ⟨rfl, rfl, rfl, rfl, rfl⟩ := range.unique other
        exact here
      · exact fun all => all f fEnd g gEnd fn range
  · simp only [terminated, ne_eq, not_false_eq_true, true_or, iff_true]
    intro result info returned
    rw [debuginfoEip_refused stabs kernel terminated] at returned
    cases returned
    exact ⟨fun zero => absurd zero (by decide), fun _ _ _ _ _ _ _ => by decide⟩

theorem succeedsWithLine_iff_small : SucceedsWithLine smallTable smallStrings 0xf0100017 := by
  have searches :
      Searches smallTable 0xf0100017 1 5 2 5 3 4 ⟨8, 0x24, 0, 0xf0100010⟩ ⟨0, 0x44, 7, 0⟩ :=
    ⟨⟨by decide, rfl, rfl, rfl⟩, rfl, rfl⟩
  refine (succeedsWithLine_iff smallTable smallStrings 0xf0100017 (by decide)).mpr (.inr ?_)
  intro f fEnd g gEnd fn range
  obtain ⟨rfl, rfl, rfl, rfl, rfl⟩ := searches.toLineRange.unique range
  exact searches.lineIn_iff.mp ⟨3, _, by decide, by decide, rfl, rfl, rfl⟩

/-- A function without line stabs. -/
def lineless : List Stab :=
  [⟨1, 0, 2, 0⟩, ⟨1, 0x64, 0, 0xf0100000⟩, ⟨8, 0x24, 0, 0xf0100010⟩]

theorem succeedsWithLine_lineless : ¬SucceedsWithLine lineless smallStrings 0xf0100017 := by
  have searches :
      Searches lineless 0xf0100017 1 3 2 3 2 2 ⟨8, 0x24, 0, 0xf0100010⟩ ⟨8, 0x24, 0, 0xf0100010⟩ :=
    ⟨⟨by decide, rfl, rfl, rfl⟩, rfl, rfl⟩
  have returned := searches.returned (by decide) (by decide +kernel : smallStrings.getLast? = some 0)
  intro succeeds
  refine absurd ((succeeds 0 _ returned).2 _ _ _ _ _ searches.toLineRange ?_) (by decide)
  rintro number ⟨i, s, low, high, read, isLine, _⟩
  obtain rfl : i = 2 := by omega
  cases read
  cases isLine

end Jos
