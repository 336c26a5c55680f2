import Jos.Kern.KdebugLookup

/-!
# The file that debuginfo_eip names

The walk back to a stab that names a file starts at the function stab, not at the line stab on
which the line search ends. It gives the line's file as long as no stab between the two names
another one.
-/
namespace Jos

open Library

/-- The text of a C string. -/
def Name.text (stabstr : List UInt8) (name : Name) : List UInt8 :=
  (name.object stabstr).takeWhile (· ≠ 0)

section NamedFile

variable {stabs : List Stab} {stabstr : List UInt8} {lo mid hi : Nat}

/-- A later stab that names a file hides the earlier ones. -/
theorem namedFile_later (left : lo ≤ mid) (right : mid ≤ hi) {j : Nat} {s : Stab}
    (later : scanLast (namesFile stabs) mid hi = some j) (read : stabs[j]? = some s) :
    namedFile stabs stabstr lo hi = nameAt stabstr s .unknown := by
  rw [namedFile, scanLast_split left right, later, Option.some_or, Option.bind_some, read]

theorem namedFile_same (left : lo ≤ mid) (right : mid ≤ hi)
    (none : scanLast (namesFile stabs) mid hi = none) :
    namedFile stabs stabstr lo hi = namedFile stabs stabstr lo mid := by
  rw [namedFile, scanLast_split left right, none, Option.none_or, ← namedFile]

/-- A stab of another type does not count. -/
theorem namedFile_succ {i : Nat} (other : namesFile stabs i = false) :
    namedFile stabs stabstr lo (i + 1) = namedFile stabs stabstr lo i := by
  by_cases left : lo ≤ i
  · refine namedFile_same left (Nat.le_succ i) (scanLast_eq_none_iff.mpr fun j low below => ?_)
    obtain rfl : j = i := by omega
    exact other
  · have short : ∀ hi, hi ≤ lo → scanLast (namesFile stabs) lo hi = none := fun hi below =>
      scanLast_eq_none_iff.mpr fun j _ _ => by omega
    rw [namedFile, short (i + 1) (by omega), namedFile, short i (by omega)]

theorem namesFile_of_line {i : Nat} (line : stabKey stabs N_SLINE i ≠ none) :
    namesFile stabs i = false := by
  obtain ⟨v, key⟩ := Option.ne_none_iff_exists'.mp line
  obtain ⟨s, read, same, _⟩ := stabKey_eq_some_iff.mp key
  rw [← Bool.not_eq_true, namesFile_iff (readAt_natCast_iff.mp read), same]
  rintro (other | ⟨other, _⟩)
  · cases other
  · cases other

end NamedFile

/-- The line search ends at the function stab at least, or just before it when that is a line
stab itself. -/
theorem Searches.line_bounds {stabs : List Stab} {addr : UInt32} {f fEnd g gEnd k kEnd : Nat}
    {fn line : Stab} (searches : Searches stabs addr f fEnd g gEnd k kEnd fn line) :
    g ≤ k ∨ (k + 1 = g ∧ stabKey stabs N_SLINE g ≠ none) := by
  rcases searches.outcome with missed | matched
  · have := missed.left
    omega
  · have left_in := matched.left_in
    by_cases first : g ≤ k
    · exact .inl first
    · exact .inr ⟨by omega, matched.edge (by omega)⟩

/-- `debuginfo_eip` names the file of the last stab up to the line stab that names one, exactly
when such a stab after the function stab gives no other name. -/
theorem debuginfoEip_file_iff (stabs : List Stab) (stabstr : List UInt8) (addr : UInt32)
    (kernel : ULIM ≤ addr) (terminated : stabstr.getLast? = some 0)
    {f fEnd g gEnd k kEnd : Nat} {fn line : Stab}
    (searches : Searches stabs addr f fEnd g gEnd k kEnd fn line) :
    (∃ info, debuginfoEip stabs stabstr addr = .ok (0, info) ∧
        info.eipFile.text stabstr = (namedFile stabs stabstr f (k + 1)).text stabstr) ↔
      ∀ j s, scanLast (namesFile stabs) (g + 1) (k + 1) = some j → stabs[j]? = some s →
        (nameAt stabstr s .unknown).text stabstr =
          (namedFile stabs stabstr f (g + 1)).text stabstr := by
  obtain ⟨inside, high, near, ordered, within, _⟩ := searches.toLineRange.bounds
  have kInside := (List.getElem?_eq_some_iff.mp searches.readLine).1
  have returned := searches.returned kernel terminated
  rw [returned]
  -- the name that is stored is that of the last naming stab up to `g`
  have stored : (∃ info, (Except.ok (0, report stabs stabstr addr f g gEnd k kEnd fn line) :
        Exec (Int × Eipdebuginfo)) = .ok (0, info) ∧
        info.eipFile.text stabstr = (namedFile stabs stabstr f (k + 1)).text stabstr) ↔
      (namedFile stabs stabstr f (g + 1)).text stabstr =
        (namedFile stabs stabstr f (k + 1)).text stabstr := by
    simp [report]
  rw [stored]
  rcases searches.line_bounds with after | ⟨before, isLine⟩
  · cases later : scanLast (namesFile stabs) (g + 1) (k + 1) with
    | none =>
      rw [namedFile_same near (by omega) later]
      refine iff_of_true rfl fun j s found => ?_
      cases found
    | some j =>
      obtain ⟨_, below, _⟩ := scanLast_eq_some_iff.mp later
      obtain ⟨s, read⟩ : ∃ s, stabs[j]? = some s :=
        ⟨_, List.getElem?_eq_getElem (by omega : j < stabs.length)⟩
      rw [namedFile_later near (by omega) later read]
      constructor
      · intro same j' s' found read'
        cases found
        rw [read, Option.some.injEq] at read'
        rw [← read', same]
      · exact fun same => (same j s rfl read).symm
  · -- the line stab comes before the function stab, which names no file itself
    rw [before, namedFile_succ (namesFile_of_line isLine)]
    have none : scanLast (namesFile stabs) (g + 1) g = .none :=
      scanLast_eq_none_iff.mpr fun j _ _ => by omega
    rw [none]
    refine iff_of_true rfl fun j s found => ?_
    cases found

/-- A function of `init.c` whose second line is from a header. -/
def includeTable : List Stab :=
  [⟨1, 0, 6, 0⟩, ⟨1, 0x64, 0, 0xf0100000⟩, ⟨8, 0x24, 0, 0xf0100010⟩, ⟨0, 0x44, 7, 0⟩,
    ⟨16, 0x84, 0, 0xf0100019⟩, ⟨0, 0x44, 3, 9⟩]

def includeStrings : List UInt8 := smallStrings ++ "x.h".toUTF8.toList ++ [0]

theorem debuginfoEip_file_iff_first :
    ∃ info, debuginfoEip includeTable includeStrings 0xf0100013 = .ok (0, info) ∧
      info.eipFile.text includeStrings =
        (namedFile includeTable includeStrings 1 4).text includeStrings := by
  have searches :
      Searches includeTable 0xf0100013 1 6 2 6 3 5 ⟨8, 0x24, 0, 0xf0100010⟩ ⟨0, 0x44, 7, 0⟩ :=
    ⟨⟨by decide, rfl, rfl, rfl⟩, rfl, rfl⟩
  refine (debuginfoEip_file_iff includeTable includeStrings 0xf0100013 (by decide)
    (by decide +kernel) searches).mpr ?_
  intro j s later
  cases later

/-- The second line is given to `init.c`. -/
theorem debuginfoEip_file_included :
    WellFormed includeTable ∧
      Searches includeTable 0xf010001c 1 6 2 6 5 6 ⟨8, 0x24, 0, 0xf0100010⟩ ⟨0, 0x44, 3, 9⟩ ∧
      ¬∃ info, debuginfoEip includeTable includeStrings 0xf010001c = .ok (0, info) ∧
        info.eipFile.text includeStrings =
          (namedFile includeTable includeStrings 1 6).text includeStrings := by
  have searches :
      Searches includeTable 0xf010001c 1 6 2 6 5 6 ⟨8, 0x24, 0, 0xf0100010⟩ ⟨0, 0x44, 3, 9⟩ :=
    ⟨⟨by decide, rfl, rfl, rfl⟩, rfl, rfl⟩
  refine ⟨⟨by decide, by decide, by decide, by decide⟩, searches, ?_⟩
  rintro ⟨info, returned, same⟩
  rw [searches.returned (by decide) (by decide +kernel), Except.ok.injEq, Prod.mk.injEq] at returned
  rw [← returned.2] at same
  revert same
  decide +kernel

end Jos
