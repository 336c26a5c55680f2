import Jos.Kern.KdebugLookup

/-!
# debuginfo_eip in a file without functions

A function search that fails leaves the line search nothing to look at, so the line number is
that of the file's own stab. Only a file at the last address is different: there the searches
wrap around and each of them ends one stab further back.
-/
namespace Jos

open Library

/-! ### A file at the last address -/

/-- Where the line search of the last address ends when it is given stab `i` alone: before it
when it is a line stab that lies above its own distance from that address. -/
def lineEnd (stabs : List Stab) (i : Nat) : Nat :=
  if (stabKey stabs N_SLINE i).any fun v => 2147483648 ≤ v then i - 1 else i

/-- Where the lookup of the last address ends when the file search wraps around at stab `m`: just
before it, but once more before that when there is a function stab at the last address. -/
def wrappedEnd (stabs : List Stab) (m : Nat) : Nat :=
  if stabKey stabs N_FUN (m - 1 : Nat) = some 4294967295 then lineEnd stabs (m - 2) else m - 1

/-- A stab of one type is of no other. -/
theorem stabKey_other {stabs : List Stab} {type other i : Int} {v : Nat}
    (key : stabKey stabs type i = some v) (ne : type ≠ other) : stabKey stabs other i = none := by
  by_contra typed
  obtain ⟨w, key'⟩ := Option.ne_none_iff_exists'.mp typed
  obtain ⟨s, read, same, _⟩ := stabKey_eq_some_iff.mp key
  obtain ⟨s', read', same', _⟩ := stabKey_eq_some_iff.mp key'
  rw [read, Except.ok.injEq] at read'
  exact ne (same.symm.trans (read' ▸ same'))

theorem stabKey_read {stabs : List Stab} {type : Int} {i v : Nat} {s : Stab}
    (key : stabKey stabs type i = some v) (read : stabs[i]? = some s) : s.nValue.toNat = v := by
  obtain ⟨s', read', _, value⟩ := stabKey_eq_some_iff.mp key
  rw [readAt_natCast_iff, read, Option.some.injEq] at read'
  rw [read', value]

/-- The line search of the last address in a range of one stab. -/
theorem LineRange.single {stabs : List Stab} {addr : UInt32} {f fEnd i : Nat} {fn : Stab}
    (header : ∀ s ∈ stabs.head?, s.type = 0) (top : addr.toNat = 4294967295)
    (range : LineRange stabs addr f fEnd i (i + 1) fn) :
    ∃ kEnd line, Searches stabs addr f fEnd i (i + 1) (lineEnd stabs i) kEnd fn line ∧
      kEnd ≤ lineEnd stabs i + 1 := by
  have back : ((i + 1 : Nat) : Int) - 1 = i := by omega
  have readFn := range.readFn
  have inside := (List.getElem?_eq_some_iff.mp readFn).1
  cases line : stabKey stabs N_SLINE i with
  | none =>
    have ends : lineEnd stabs i = i := if_neg (by simp [line])
    rw [ends]
    refine ⟨i, fn, ⟨range, ?_, readFn⟩, by omega⟩
    rw [back]
    refine stabBinsearch_none (by omega) (by omega) (by omega) _ fun i' above below => ?_
    obtain rfl : i' = i := by omega
    exact line
  | some v =>
    have value := stabKey_read line readFn
    have offset : (lineAddr addr fn i (i + 1)).toNat = 4294967295 - v := by
      have bound := fn.nValue.toNat_lt
      rw [lineAddr, if_pos (by omega), UInt32.toNat_sub_of_le _ _
        (UInt32.le_iff_toNat_le.mpr (by omega)), top, value]
    have bound := stabKey_lt line
    by_cases above : 2147483648 ≤ v
    · -- the header at index 0 is no line stab
      have proper : i ≠ 0 := by
        rintro rfl
        obtain ⟨s, read, isLine, _⟩ := stabKey_eq_some_iff.mp line
        have isHeader := header s (by
          simpa [List.head?_eq_getElem?] using readAt_natCast_iff.mp read)
        rw [isLine] at isHeader
        cases isHeader
      have ends : lineEnd stabs i = i - 1 := if_pos (by simp [line, above])
      rw [ends]
      refine ⟨i, stabs[i - 1], ⟨range, ?_, List.getElem?_eq_getElem (by omega)⟩, by omega⟩
      rw [back, stabBinsearch_single_above (by omega) (by omega) line (.inl (by omega)),
        Int.natCast_sub (by omega)]
      rfl
    · have ends : lineEnd stabs i = i := if_neg (by simp [line, above])
      rw [ends]
      refine ⟨i + 1, fn, ⟨range, ?_, readFn⟩, by omega⟩
      rw [back]
      exact stabBinsearch_single (by omega) (by omega) line (by omega) (by omega)

/-- The lookup of the last address, when the file search wraps around, is over in three stabs. -/
theorem searches_wrapped {stabs : List Stab} {addr : UInt32} {m : Nat}
    (header : ∀ s ∈ stabs.head?, s.type = 0) (top : addr.toNat = 4294967295)
    (falls : FallsBack (stabKey stabs N_SO) 0 ((stabs.length : Int) - 1) addr m)
    (second : 1 < m) :
    ∃ fEnd g gEnd kEnd fn line,
      Searches stabs addr (m - 1) fEnd g gEnd (wrappedEnd stabs m) kEnd fn line ∧
        kEnd ≤ wrappedEnd stabs m + 1 := by
  obtain ⟨j, rfl⟩ : ∃ j, m = j + 1 := ⟨m - 1, by omega⟩
  obtain ⟨_, readM, _⟩ := stabKey_eq_some_iff.mp falls.here
  have inside := (List.getElem?_eq_some_iff.mp (readAt_natCast_iff.mp readM)).1
  have back : ((j + 1 : Nat) : Int) - 1 = j := by omega
  have file : stabBinsearch stabs 0 ((stabs.length : Int) - 1) N_SO addr =
      .ok ((j : Int), ((j + 1 : Nat) : Int) - 1) := by
    rw [stabBinsearch_fallsBack (Int.le_refl 0) (by omega) falls, back]
  have readJ : stabs[j]? = some stabs[j] := List.getElem?_eq_getElem (by omega)
  cases function : stabKey stabs N_FUN j with
  | none =>
    have ends : wrappedEnd stabs (j + 1) = j := if_neg (by simp [function])
    have missed : stabBinsearch stabs j (((j + 1 : Nat) : Int) - 1) N_FUN addr =
        .ok ((j : Int), (j : Int) - 1) := by
      rw [back]
      refine stabBinsearch_none (by omega) (by omega) (by omega) addr fun i above below => ?_
      obtain rfl : i = j := by omega
      exact function
    have noLines : ∀ addr, stabBinsearch stabs j ((j : Int) - 1) N_SLINE addr =
        .ok ((j : Int), (j : Int) - 1) := fun addr =>
      stabBinsearch_none (by omega) (by omega) (by omega) addr fun i above below => by omega
    rw [ends]
    exact ⟨j + 1, j, j, j, stabs[j], stabs[j],
      ⟨⟨by omega, file, missed, readJ⟩, noLines _, readJ⟩, by omega⟩
  | some b =>
    have bound := stabKey_lt function
    by_cases last : b = 4294967295
    · -- the function search wraps around as well
      obtain ⟨i, rfl⟩ : ∃ i, j = i + 1 := ⟨j - 1, by omega⟩
      have back' : ((i + 1 : Nat) : Int) - 1 = i := by omega
      have wrapped : stabBinsearch stabs (i + 1 : Nat) (((i + 1 + 1 : Nat) : Int) - 1) N_FUN addr =
          .ok ((i : Int), ((i + 1 : Nat) : Int) - 1) := by
        rw [back, stabBinsearch_single_above (by omega) (by omega) function (.inr ⟨last, top⟩), back']
      have readI : stabs[i]? = some stabs[i] := List.getElem?_eq_getElem (by omega)
      have ends : wrappedEnd stabs (i + 1 + 1) = lineEnd stabs i :=
        if_pos (by rw [Nat.add_sub_cancel, function, last])
      rw [ends]
      obtain ⟨kEnd, line, searches, near⟩ :=
        LineRange.single header top ⟨by omega, file, wrapped, readI⟩
      exact ⟨i + 1 + 1, i, i + 1, kEnd, stabs[i], line, searches, near⟩
    · have found : stabBinsearch stabs j (((j + 1 : Nat) : Int) - 1) N_FUN addr =
          .ok ((j : Int), ((j + 1 : Nat) : Int) - 1) := by
        rw [back]
        exact stabBinsearch_single (by omega) (by omega) function (by omega) (by omega)
      have ends : wrappedEnd stabs (j + 1) = lineEnd stabs j := by
        rw [wrappedEnd, if_neg (by simp [function, last]), lineEnd,
          if_neg (by simp [stabKey_other function (by decide : N_FUN ≠ N_SLINE)]),
          Nat.add_sub_cancel]
      rw [ends]
      obtain ⟨kEnd, line, searches, near⟩ :=
        LineRange.single header top ⟨by omega, file, found, readJ⟩
      exact ⟨j + 1, j, j + 1, kEnd, stabs[j], line, searches, near⟩

/-! ### Files without functions -/

/-- The file stab and the line stab that a linear scan finds for an address in a file without
functions, whose line stabs carry addresses. -/
def assemblyLookup (stabs : List Stab) (addr : UInt32) : Option (Stab × Stab) := do
  let f ← lastStab stabs N_SO 0 stabs.length addr.toNat
  if firstFunction stabs f < fileEnd stabs f then none
  else do
    let so ← stabs[f]?
    let k ← lastStab stabs N_SLINE f (fileEnd stabs f) addr.toNat
    let line ← stabs[k]?
    pure (so, line)

/-- The stab on which the lookup ends has the number of `line`: the file's own stab, or the stab
on which the lookup of the last address ends in a file at that address. -/
def EndsOnNumberOf (stabs : List Stab) (addr : UInt32) (so line : Stab) : Prop :=
  if addr = 0xffffffff ∧ so.nValue = 0xffffffff then
    ∀ m : Nat, FallsBack (stabKey stabs N_SO) 0 ((stabs.length : Int) - 1) addr m →
      1 < m ∧ ∀ s, stabs[wrappedEnd stabs m]? = some s → s.nDesc = line.nDesc
  else so.nDesc = line.nDesc

/-- Success with the number of `line` when the searches end on a stab. -/
theorem Searches.eipLine_iff {stabs : List Stab} {stabstr : List UInt8} {addr : UInt32}
    {f fEnd g gEnd k kEnd : Nat} {fn last : Stab} (kernel : ULIM ≤ addr)
    (terminated : stabstr.getLast? = some 0)
    (searches : Searches stabs addr f fEnd g gEnd k kEnd fn last) (line : Stab) :
    (∃ info, debuginfoEip stabs stabstr addr = .ok (0, info) ∧
      info.eipLine = line.nDesc.toNat) ↔ last.nDesc = line.nDesc := by
  rw [searches.returned kernel terminated]
  constructor
  · rintro ⟨info, returned, number⟩
    rw [Except.ok.injEq, Prod.mk.injEq] at returned
    rw [← returned.2] at number
    exact UInt16.toNat_inj.mp (Int.ofNat.inj number)
  · intro same
    exact ⟨_, rfl, by rw [← same]; rfl⟩

theorem lastAddr_iff {a : UInt32} : a = 0xffffffff ↔ a.toNat = 4294967295 :=
  ⟨fun same => same ▸ rfl, fun same => UInt32.toNat_inj.mp same⟩

/-- The file search wraps around at one stab only, when the last file is at the last address. -/
theorem WellFormed.fallsBack {stabs : List Stab} {addr : UInt32} {f : Nat} {so : Stab}
    (wf : WellFormed stabs) (file : lastStab stabs N_SO 0 stabs.length addr.toNat = some f)
    (readSo : stabs[f]? = some so) (top : addr.toNat = 4294967295)
    (last : so.nValue.toNat = 4294967295) :
    ∃ m : Nat, 0 < m ∧
      FallsBack (stabKey stabs N_SO) 0 ((stabs.length : Int) - 1) addr m := by
  obtain ⟨_, inside, isFile, _⟩ := lastStab_read file readSo
  have key : stabKey stabs N_SO f = some 4294967295 := last ▸ stabKey_of_read readSo isFile
  obtain ⟨m, falls, low, _, here⟩ := fallsBack_of_last wf.files.ascending top
    (by omega : (0 : Int) ≤ f) (by omega) key
    (fun i v key => by have := stabKey_lt key; omega)
  obtain ⟨n, rfl⟩ := Int.eq_ofNat_of_zero_le low
  refine ⟨n, ?_, falls⟩
  by_contra zero
  obtain rfl : n = 0 := by omega
  obtain ⟨s, read, isFile', _⟩ := stabKey_eq_some_iff.mp here
  have header := wf.header s (by simpa [List.head?_eq_getElem?] using readAt_natCast_iff.mp read)
  rw [isFile'] at header
  cases header

/-- Without functions in the file the line search gets nothing to look at, and ends on the file's
own stab. -/
theorem WellFormed.searches_noFunction {stabs : List Stab} {addr : UInt32} {f : Nat} {so : Stab}
    (wf : WellFormed stabs) (file : lastStab stabs N_SO 0 stabs.length addr.toNat = some f)
    (readSo : stabs[f]? = some so)
    (noWrap : ¬(addr.toNat = 4294967295 ∧ so.nValue.toNat = 4294967295))
    (noFun : ¬firstFunction stabs f < fileEnd stabs f) :
    Searches stabs addr f (fileEnd stabs f) f f f f so so := by
  obtain ⟨_, fHigh, isFile, _⟩ := lastStab_read file readSo
  obtain ⟨inside, fileHigh⟩ := fileEnd_bounds fHigh
  have wrapFree := wf.files.wrapFree file readSo noWrap
  have noFunction : ∀ i : Int, (f : Int) ≤ i →
      i ≤ (fileEnd stabs f : Int) - 1 → stabKey stabs N_FUN i = none := by
    intro i above below
    obtain ⟨n, rfl⟩ := Int.eq_ofNat_of_zero_le (by omega : 0 ≤ i)
    by_cases first : n = f
    · rw [first]
      exact stabKey_other (stabKey_of_read readSo isFile) (by decide)
    · have none : ∀ j, f < j → j < firstFunction stabs f → ofType stabs N_FUN j = false :=
        (spanEnd_spec inside).2.2.2
      have other := none n (by omega) (by omega)
      simpa [ofType] using other
  have function := stabBinsearch_none (by omega) (by omega) (by omega) addr noFunction
  have noLines : ∀ addr, stabBinsearch stabs f ((f : Int) - 1) N_SLINE addr =
      .ok ((f : Int), (f : Int) - 1) := fun addr =>
    stabBinsearch_none (by omega) (by omega) (by omega) addr fun i above below => by omega
  exact ⟨⟨wf.file_pos file, wf.fileSearch wrapFree file, function, readSo⟩, noLines _, readSo⟩

theorem WellFormed.assembly_iff {stabs : List Stab} {stabstr : List UInt8} {addr : UInt32}
    (wf : WellFormed stabs) (kernel : ULIM ≤ addr) (terminated : stabstr.getLast? = some 0)
    {so line : Stab} (found : assemblyLookup stabs addr = some (so, line)) :
    (∃ info, debuginfoEip stabs stabstr addr = .ok (0, info) ∧
      info.eipLine = line.nDesc.toNat) ↔ EndsOnNumberOf stabs addr so line := by
  simp only [assemblyLookup, Option.bind_eq_bind, Option.bind_eq_some_iff, Option.pure_def,
    Option.ite_none_left_eq_some, Option.some.injEq, Prod.mk.injEq] at found
  obtain ⟨f, file, noFun, so, readSo, _, _, line, _, rfl, rfl⟩ := found
  simp only [EndsOnNumberOf, lastAddr_iff]
  split
  next wraps =>
    obtain ⟨top, last⟩ := wraps
    obtain ⟨m, positive, falls⟩ := wf.fallsBack file readSo top last
    have unique : ∀ m' : Nat,
        FallsBack (stabKey stabs N_SO) 0 ((stabs.length : Int) - 1) addr m' → m' = m := by
      intro m' other
      have same := (stabBinsearch_fallsBack (Int.le_refl 0) (by omega) falls).symm.trans
        (stabBinsearch_fallsBack (Int.le_refl 0) (by omega) other)
      simp only [Except.ok.injEq, Prod.mk.injEq] at same
      omega
    by_cases second : 1 < m
    · obtain ⟨fEnd, g, gEnd, kEnd, fn, last', searches, _⟩ :=
        searches_wrapped wf.header top falls second
      rw [searches.eipLine_iff kernel terminated line]
      constructor
      · intro same m' other
        obtain rfl := unique m' other
        refine ⟨second, fun s read => ?_⟩
        rw [searches.readLine, Option.some.injEq] at read
        rw [← read, same]
      · exact fun all => (all m falls).2 last' searches.readLine
    · -- the file search comes back to the header, as if there were no file
      constructor
      · rintro ⟨info, returned, _⟩
        have zero : ((m : Int) - 1) = 0 := by omega
        have none := stabBinsearch_fallsBack (Int.le_refl 0) (by omega) falls
        rw [zero] at none
        rw [debuginfoEip_noFile kernel terminated none] at returned
        cases returned
      · exact fun all => absurd (all m falls).1 second
  next noWrap =>
    have searches := wf.searches_noFunction file readSo noWrap noFun
    exact searches.eipLine_iff kernel terminated line

/-- `debuginfo_eip` finds the line of an address in a file without functions exactly when the
string table ends in a NUL and the stab on which it ends happens to have that number. -/
theorem debuginfoEip_assembly_iff (stabs : List Stab) (stabstr : List UInt8) (addr : UInt32)
    (wf : WellFormed stabs) (kernel : ULIM ≤ addr) (so line : Stab)
    (found : assemblyLookup stabs addr = some (so, line)) :
    (∃ info, debuginfoEip stabs stabstr addr = .ok (0, info) ∧
      info.eipLine = line.nDesc.toNat) ↔
        stabstr.getLast? = some 0 ∧ EndsOnNumberOf stabs addr so line := by
  by_cases terminated : stabstr.getLast? = some 0
  · rw [and_iff_right terminated]
    exact wf.assembly_iff kernel terminated found
  · refine iff_of_false ?_ fun both => terminated both.1
    rintro ⟨info, returned, _⟩
    rw [debuginfoEip_refused stabs kernel terminated] at returned
    cases returned

/-- A file stab with the number of the only line of its file. -/
def stampedTable : List Stab :=
  [⟨1, 0, 2, 0⟩, ⟨1, 0x64, 44, 0xf0100000⟩, ⟨0, 0x44, 44, 0xf010000c⟩]

theorem debuginfoEip_assembly_iff_stamped :
    ∃ info, debuginfoEip stampedTable smallStrings 0xf0100011 = .ok (0, info) ∧
      info.eipLine = 44 :=
  (debuginfoEip_assembly_iff stampedTable smallStrings 0xf0100011
    ⟨by decide, by decide, by decide, by decide⟩ (by decide)
    ⟨1, 0x64, 44, 0xf0100000⟩ ⟨0, 0x44, 44, 0xf010000c⟩ (by decide)).mpr
      ⟨by decide +kernel, by rw [EndsOnNumberOf, if_neg (by decide)]⟩

/-- A file of two assembly lines. -/
def assemblyTable : List Stab :=
  [⟨1, 0, 3, 0⟩, ⟨1, 0x64, 0, 0xf0100000⟩, ⟨0, 0x44, 44, 0xf010000c⟩, ⟨0, 0x44, 57, 0xf0100015⟩]

/-- The number returned is not that of the first line. -/
theorem debuginfoEip_assembly_line :
    WellFormed assemblyTable ∧
      assemblyLookup assemblyTable 0xf0100011 =
        some (⟨1, 0x64, 0, 0xf0100000⟩, ⟨0, 0x44, 44, 0xf010000c⟩) ∧
      ¬∃ info, debuginfoEip assemblyTable smallStrings 0xf0100011 = .ok (0, info) ∧
        info.eipLine = 44 := by
  refine ⟨⟨by decide, by decide, by decide, by decide⟩, by decide, ?_⟩
  have searches : Searches assemblyTable 0xf0100011 1 4 1 1 1 1 ⟨1, 0x64, 0, 0xf0100000⟩
      ⟨1, 0x64, 0, 0xf0100000⟩ := ⟨⟨by decide, rfl, rfl, rfl⟩, rfl, rfl⟩
  intro found
  have same := (searches.eipLine_iff (by decide) (by decide +kernel) ⟨0, 0x44, 44, 0xf010000c⟩).mp found
  cases same

end Jos
