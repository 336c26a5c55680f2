import Jos.Kern.KdebugAssembly

/-!
# The arguments that debuginfo_eip counts

The count begins after the stab on which the line search ends, not after the function stab, and
stops short of the last stab of that line's span.
-/
namespace Jos

open Library

/-- The function stab that contains the address, with the end of its range, as a linear scan
finds it. -/
def containingFunction (stabs : List Stab) (addr : UInt32) : Option (Nat × Nat) := do
  let f ← lastStab stabs N_SO 0 stabs.length addr.toNat
  let g ← lastStab stabs N_FUN f (fileEnd stabs f) addr.toNat
  pure (g, functionEnd stabs f g)

/-- The number of parameters of the containing function, 0 without one. -/
def parameters (stabs : List Stab) (addr : UInt32) : Nat :=
  match containingFunction stabs addr with
  | some (g, gEnd) => argCount stabs (g + 1) gEnd
  | none => 0

/-- `debuginfo_eip` returns, whatever its result, with that `eip_fn_narg`. -/
def ReturnsNarg (stabs : List Stab) (stabstr : List UInt8) (addr : UInt32) (n : Nat) : Prop :=
  ∃ result info, debuginfoEip stabs stabstr addr = .ok (result, info) ∧ info.eipFnNarg = n

/-- One of the three searches wraps around: it looks for the last address, and its last stab at
or below that is at it. -/
def SomeSearchWraps (stabs : List Stab) (addr : UInt32) (so fn : Stab) (g gEnd : Nat) : Prop :=
  addr = 0xffffffff ∧ (so.nValue = 0xffffffff ∨ fn.nValue = 0xffffffff ∨
    fn.nValue = 0 ∧ ∃ i < gEnd, g ≤ i ∧ stabKey stabs N_SLINE i = some 4294967295)

instance (stabs : List Stab) (addr : UInt32) (so fn : Stab) (g gEnd : Nat) :
    Decidable (SomeSearchWraps stabs addr so fn g gEnd) :=
  inferInstanceAs (Decidable
    (addr = 0xffffffff ∧ (so.nValue = 0xffffffff ∨ fn.nValue = 0xffffffff ∨
      fn.nValue = 0 ∧ ∃ i < gEnd, g ≤ i ∧ stabKey stabs N_SLINE i = some 4294967295)))

/-- The `N_PSYM` stabs that directly follow the stab on which the line search ends, short of the
last one of its span. -/
def countedArgs (stabs : List Stab) (addr : UInt32) (so fn : Stab) (g gEnd : Nat) : Nat :=
  if SomeSearchWraps stabs addr so fn g gEnd then 0
  else
    let region := scanRegion stabs N_SLINE g gEnd (addr.toNat - fn.nValue.toNat)
    argCount stabs (region.1 + 1) (region.2 - 1)

/-- When a file has functions but only above the address, the line search runs in what comes
before the first of them. No `N_PSYM` stab follows the stab on which it ends, short of the last
one of its region. -/
def NoneCounted (stabs : List Stab) (addr : UInt32) (so : Stab) (f first : Nat) : Prop :=
  ∀ k e, EndsOn (stabKey stabs N_SLINE) f ((first : Int) - 1) (addr - so.nValue) k e →
    k + 1 < e → stabKey stabs N_PSYM (k + 1) = none

/-- What the table must be like at an address for the arguments to be counted as they are. -/
def ArgsKept (stabs : List Stab) (addr : UInt32) : Prop :=
  ∀ f so, lastStab stabs N_SO 0 stabs.length addr.toNat = some f → stabs[f]? = some so →
    (∀ g fn, lastStab stabs N_FUN f (fileEnd stabs f) addr.toNat = some g →
      stabs[g]? = some fn → countedArgs stabs addr so fn g (functionEnd stabs f g) =
        argCount stabs (g + 1) (functionEnd stabs f g)) ∧
    (lastStab stabs N_FUN f (fileEnd stabs f) addr.toNat = none →
      firstFunction stabs f < fileEnd stabs f →
      ¬(addr = 0xffffffff ∧ so.nValue = 0xffffffff) →
        NoneCounted stabs addr so f (firstFunction stabs f))

section Narg

variable {stabs : List Stab} {stabstr : List UInt8} {addr : UInt32} {f g : Nat} {so fn : Stab}

theorem ReturnsNarg.iff {n n' : Nat} (returns : ReturnsNarg stabs stabstr addr n) :
    ReturnsNarg stabs stabstr addr n' ↔ n = n' := by
  constructor
  · rintro ⟨result', info', returned', narg'⟩
    obtain ⟨result, info, returned, narg⟩ := returns
    rw [returned, Except.ok.injEq, Prod.mk.injEq] at returned'
    rw [← returned'.2, narg] at narg'
    exact Int.ofNat.inj narg'
  · rintro rfl
    exact returns

theorem narg_refused (kernel : ULIM ≤ addr) (refused : stabstr.getLast? ≠ some 0) :
    ReturnsNarg stabs stabstr addr 0 :=
  ⟨-1, _, debuginfoEip_refused stabs kernel refused, rfl⟩

theorem narg_noFile (kernel : ULIM ≤ addr) (terminated : stabstr.getLast? = some 0) {rfile : Int}
    (none : stabBinsearch stabs 0 ((stabs.length : Int) - 1) N_SO addr = .ok (0, rfile)) :
    ReturnsNarg stabs stabstr addr 0 :=
  ⟨-1, _, debuginfoEip_noFile kernel terminated none, rfl⟩

theorem Searches.narg {fEnd gEnd k kEnd : Nat} {line : Stab} (kernel : ULIM ≤ addr)
    (terminated : stabstr.getLast? = some 0)
    (searches : Searches stabs addr f fEnd g gEnd k kEnd fn line) :
    ReturnsNarg stabs stabstr addr (argCount stabs (k + 1) (kEnd - 1)) :=
  ⟨0, _, searches.returned kernel terminated, rfl⟩

theorem Searches.narg_zero {fEnd gEnd k kEnd : Nat} {line : Stab} (kernel : ULIM ≤ addr)
    (terminated : stabstr.getLast? = some 0)
    (searches : Searches stabs addr f fEnd g gEnd k kEnd fn line) (short : kEnd ≤ k + 1) :
    ReturnsNarg stabs stabstr addr 0 := by
  have counted := searches.narg kernel terminated
  rwa [argCount_of_le (by omega)] at counted

/-- Where the file search wraps around nothing is counted. -/
theorem WellFormed.narg_wrapped (wf : WellFormed stabs) (kernel : ULIM ≤ addr)
    (terminated : stabstr.getLast? = some 0)
    (file : lastStab stabs N_SO 0 stabs.length addr.toNat = some f)
    (readSo : stabs[f]? = some so) (top : addr.toNat = 4294967295)
    (last : so.nValue.toNat = 4294967295) : ReturnsNarg stabs stabstr addr 0 := by
  obtain ⟨m, positive, falls⟩ := wf.fallsBack file readSo top last
  by_cases second : 1 < m
  · obtain ⟨fEnd, g, gEnd, kEnd, fn, line, searches, short⟩ :=
      searches_wrapped wf.header top falls second
    exact searches.narg_zero kernel terminated short
  · obtain rfl : m = 1 := by omega
    exact narg_noFile kernel terminated (stabBinsearch_fallsBack (Int.le_refl 0) (by omega) falls)

/-- Nor where the function search does, whose range begins with the file's own stab. -/
theorem WellFormed.narg_wrappedFunction (wf : WellFormed stabs) (kernel : ULIM ≤ addr)
    (terminated : stabstr.getLast? = some 0)
    (file : lastStab stabs N_SO 0 stabs.length addr.toNat = some f)
    (readSo : stabs[f]? = some so)
    (noWrap : ¬(addr.toNat = 4294967295 ∧ so.nValue.toNat = 4294967295))
    (function : lastStab stabs N_FUN f (fileEnd stabs f) addr.toNat = some g)
    (readFn : stabs[g]? = some fn) (top : addr.toNat = 4294967295)
    (last : fn.nValue.toNat = 4294967295) : ReturnsNarg stabs stabstr addr 0 := by
  obtain ⟨_, fHigh, isFile, _⟩ := lastStab_read file readSo
  obtain ⟨fg, gHigh, isFunction, _⟩ := lastStab_read function readFn
  obtain ⟨inside, fileHigh⟩ := fileEnd_bounds fHigh
  have key : stabKey stabs N_FUN g = some 4294967295 := last ▸ stabKey_of_read readFn isFunction
  obtain ⟨m, falls, low, high, here⟩ := fallsBack_of_last (wf.functions_spaced file).ascending
    top (by omega : (f : Int) ≤ g) (by omega) key
    (fun i v key => by have := stabKey_lt key; omega)
  -- the stab at which it wraps is not the file's own
  have after : (f : Int) < m := by
    by_contra first
    obtain rfl : m = f := by omega
    have other := stabKey_other here (by decide : N_FUN ≠ N_SO)
    rw [stabKey_of_read readSo isFile] at other
    cases other
  obtain ⟨i, rfl⟩ : ∃ i : Nat, m = ((i + 1 : Nat) : Int) := ⟨(m - 1).toNat, by omega⟩
  have search := stabBinsearch_fallsBack (by omega) (by omega) falls
  have back : ((i + 1 : Nat) : Int) - 1 = i := by omega
  have range : LineRange stabs addr f (fileEnd stabs f) i (i + 1) stabs[i] :=
    ⟨wf.file_pos file, wf.fileSearch (wf.files.wrapFree file readSo noWrap) file,
      by rw [search, back], List.getElem?_eq_getElem (by omega)⟩
  obtain ⟨kEnd, line, searches, short⟩ := range.single wf.header top
  exact searches.narg_zero kernel terminated short

/-- Nor where the line search does, whose range begins with the function stab. -/
theorem LineRange.narg_wrapped (kernel : ULIM ≤ addr) (terminated : stabstr.getLast? = some 0)
    {fEnd gEnd i : Nat} (range : LineRange stabs addr f fEnd g gEnd fn) (fnType : fn.type = N_FUN)
    (spaced : Spaced stabs N_SLINE g gEnd) (top : (lineAddr addr fn g gEnd).toNat = 4294967295)
    (low : g ≤ i) (high : i < gEnd) (key : stabKey stabs N_SLINE i = some 4294967295) :
    ReturnsNarg stabs stabstr addr 0 := by
  obtain ⟨_, _, _, _, within, _⟩ := range.bounds
  obtain ⟨m, falls, above, below, here⟩ := fallsBack_of_last spaced.ascending top
    (by omega : (g : Int) ≤ i) (by omega) key (fun i v key => by have := stabKey_lt key; omega)
  have after : (g : Int) < m := by
    by_contra first
    obtain rfl : m = g := by omega
    have other := stabKey_other here (by decide : N_SLINE ≠ N_FUN)
    rw [stabKey_of_read range.readFn fnType] at other
    cases other
  obtain ⟨k, kEnd, line, left, right, searches⟩ := range.searches
    (stabBinsearch_fallsBack (by omega) (by omega) falls) (by omega)
  exact searches.narg_zero kernel terminated (by omega)

theorem toNat_lineAddr {gEnd : Nat} (inside : g < gEnd)
    (little : fn.nValue.toNat ≤ addr.toNat) :
    (lineAddr addr fn g gEnd).toNat = addr.toNat - fn.nValue.toNat := by
  rw [lineAddr, if_pos inside]
  exact UInt32.toNat_sub_of_le _ _ (UInt32.le_iff_toNat_le.mpr little)

/-- Otherwise the count is that of the region which a scan finds. -/
theorem LineRange.narg_region (kernel : ULIM ≤ addr) (terminated : stabstr.getLast? = some 0)
    {fEnd gEnd : Nat} (range : LineRange stabs addr f fEnd g gEnd fn) (fnType : fn.type = N_FUN)
    (spaced : Spaced stabs N_SLINE g gEnd) (inside : g < gEnd)
    (little : fn.nValue.toNat ≤ addr.toNat)
    (noWrap : ∀ i < gEnd, g ≤ i → stabKey stabs N_SLINE i = some 4294967295 →
      addr.toNat - fn.nValue.toNat < 4294967295) :
    let region := scanRegion stabs N_SLINE g gEnd (addr.toNat - fn.nValue.toNat)
    ReturnsNarg stabs stabstr addr (argCount stabs (region.1 + 1) (region.2 - 1)) := by
  obtain ⟨_, high, _, _, within, _⟩ := range.bounds
  have relative := toNat_lineAddr inside little
  have other : ofType stabs N_SLINE g = false := by
    rw [← Bool.not_eq_true, ofType_iff range.readFn, fnType]
    decide
  have wrapFree : WrapFree stabs N_SLINE g ((gEnd : Int) - 1) (lineAddr addr fn g gEnd).toNat := by
    intro i above below key
    obtain ⟨n, rfl⟩ := Int.eq_ofNat_of_zero_le (stabKey_index_nonneg key)
    by_contra top
    have bound := stabKey_lt key
    have last : (lineAddr addr fn g gEnd).toNat = 4294967295 := by omega
    rw [last] at key
    have := noWrap n (by omega) (by omega) key
    omega
  have search := stabBinsearch_region (lineAddr addr fn g gEnd) inside (by omega) spaced other
    fun _ _ => wrapFree
  rw [relative] at search
  obtain ⟨⟨first, last⟩, region⟩ :
      ∃ region, scanRegion stabs N_SLINE g gEnd (addr.toNat - fn.nValue.toNat) = region := ⟨_, rfl⟩
  rw [region] at search ⊢
  obtain ⟨k, kEnd, line, left, right, searches⟩ := range.searches search (by omega)
  obtain rfl : first = k := by omega
  obtain rfl : last = kEnd := by omega
  exact searches.narg kernel terminated

/-- The number counted for the function that contains the address. -/
theorem WellFormed.narg_function (wf : WellFormed stabs) (kernel : ULIM ≤ addr)
    (terminated : stabstr.getLast? = some 0)
    (file : lastStab stabs N_SO 0 stabs.length addr.toNat = some f)
    (readSo : stabs[f]? = some so)
    (function : lastStab stabs N_FUN f (fileEnd stabs f) addr.toNat = some g)
    (readFn : stabs[g]? = some fn) :
    ReturnsNarg stabs stabstr addr
      (countedArgs stabs addr so fn g (functionEnd stabs f g))
      := by
  obtain ⟨_, gHigh, fnType, little⟩ := lastStab_read function readFn
  obtain ⟨inside, _⟩ := functionEnd_bounds gHigh
  have spaced := wf.lines_spaced file function
  by_cases fileWraps : addr.toNat = 4294967295 ∧ so.nValue.toNat = 4294967295
  · rw [countedArgs, if_pos ⟨lastAddr_iff.mpr fileWraps.1, .inl (lastAddr_iff.mpr fileWraps.2)⟩]
    exact wf.narg_wrapped kernel terminated file readSo fileWraps.1 fileWraps.2
  by_cases functionWraps : addr.toNat = 4294967295 ∧ fn.nValue.toNat = 4294967295
  · rw [countedArgs, if_pos ⟨lastAddr_iff.mpr functionWraps.1,
      .inr (.inl (lastAddr_iff.mpr functionWraps.2))⟩]
    exact wf.narg_wrappedFunction kernel terminated file readSo fileWraps function readFn
      functionWraps.1 functionWraps.2
  have range := wf.lineRange file (wf.files.wrapFree file readSo fileWraps) function
    ((wf.functions_spaced file).wrapFree function readFn functionWraps) readFn
  have relative := toNat_lineAddr inside little
  unfold countedArgs
  split
  next wraps =>
    -- only the line search is left to wrap around
    obtain ⟨top, soLast | fnLast | ⟨fnZero, i, high, low, key⟩⟩ := wraps
    · exact absurd ⟨lastAddr_iff.mp top, lastAddr_iff.mp soLast⟩ fileWraps
    · exact absurd ⟨lastAddr_iff.mp top, lastAddr_iff.mp fnLast⟩ functionWraps
    · rw [fnZero, lastAddr_iff.mp top] at relative
      exact range.narg_wrapped kernel terminated fnType spaced relative low high key
  next noWrap =>
    refine range.narg_region kernel terminated fnType spaced inside little ?_
    intro i high low key
    by_contra top
    have bound := addr.toNat_lt
    refine noWrap ⟨lastAddr_iff.mpr (by omega), .inr (.inr ⟨UInt32.toNat_inj.mp ?_, i, high, low, key⟩)⟩
    rw [UInt32.toNat_zero]
    omega

/-- With functions only above the address, the line search runs before the first of them. -/
theorem WellFormed.narg_before (wf : WellFormed stabs) (kernel : ULIM ≤ addr)
    (terminated : stabstr.getLast? = some 0)
    (file : lastStab stabs N_SO 0 stabs.length addr.toNat = some f)
    (readSo : stabs[f]? = some so)
    (noWrap : ¬(addr.toNat = 4294967295 ∧ so.nValue.toNat = 4294967295))
    (absent : lastStab stabs N_FUN f (fileEnd stabs f) addr.toNat = none)
    (later : firstFunction stabs f < fileEnd stabs f) :
    ReturnsNarg stabs stabstr addr 0 ↔ NoneCounted stabs addr so f (firstFunction stabs f) := by
  obtain ⟨_, fHigh, isFile, _⟩ := lastStab_read file readSo
  obtain ⟨inside, fileHigh⟩ := fileEnd_bounds fHigh
  have after : f < firstFunction stabs f := (functionEnd_bounds inside).1
  have other : ∀ type, N_SO ≠ type → ofType stabs type f = false := by
    intro type ne
    rw [← Bool.not_eq_true, ofType_iff readSo, isFile]
    exact ne
  have function := stabBinsearch_region addr inside fileHigh (wf.functions_spaced file)
    (other N_FUN (by decide)) fun i found => by rw [absent] at found; cases found
  simp only [scanRegion, absent, if_pos later] at function
  have range : LineRange stabs addr f _ f _ so := ⟨wf.file_pos file,
    wf.fileSearch (wf.files.wrapFree file readSo noWrap) file, function, readSo⟩
  -- the range begins with the file's own stab, so the search does not leave it
  obtain ⟨left, right, lines, outcome⟩ := range.lineSearch
  have nonneg : 0 ≤ left := by
    rcases outcome with missed | matched
    · have := missed.left
      omega
    · have left_in := matched.left_in
      by_contra negative
      have untyped := other N_SLINE (by decide)
      exact matched.edge (by omega) (by simpa [ofType] using untyped)
  obtain ⟨k, kEnd, line, rfl, rfl, searches⟩ := range.searches lines nonneg
  rw [(searches.narg kernel terminated).iff, argCount_eq_zero_iff]
  rw [lineAddr, if_pos after] at lines
  have region := fun k e => @stabBinsearch_endsOn stabs N_SLINE f
    ((firstFunction stabs f : Int) - 1) (addr - so.nValue) (by omega) (by omega) (by omega)
    (by simpa [ofType] using other N_SLINE (by decide)) k e
  constructor
  · intro stop k' e ends open_
    have lines' := (region k' e (by omega)).mpr ends
    rw [lines, Except.ok.injEq, Prod.mk.injEq] at lines'
    obtain ⟨rfl, rfl⟩ := lines'
    have here := stop (by omega)
    simpa [ofType] using here
  · intro counted open_
    have here := counted k _ ((region _ _ (by omega)).mp lines) (by omega)
    simpa [ofType] using here

theorem WellFormed.narg_outside (wf : WellFormed stabs) (kernel : ULIM ≤ addr)
    (terminated : stabstr.getLast? = some 0)
    (absent : lastStab stabs N_SO 0 stabs.length addr.toNat = none) :
    ReturnsNarg stabs stabstr addr 0 := by
  by_cases inside : 0 < stabs.length
  · have other : ofType stabs N_SO 0 = false := by
      have header := wf.header stabs[0] (by simp [List.head?_eq_getElem?])
      rw [← Bool.not_eq_true, ofType_iff (List.getElem?_eq_getElem inside), header]
      decide
    have search := stabBinsearch_region addr inside (Nat.le_refl _) wf.files other
      fun i found => by rw [absent] at found; cases found
    simp only [scanRegion, absent] at search
    exact narg_noFile kernel terminated search
  · have empty : ∀ i : Int, 0 ≤ i → i ≤ (stabs.length : Int) - 1 → stabKey stabs N_SO i = none :=
      fun i low high => by omega
    exact narg_noFile kernel terminated
      (stabBinsearch_none (Int.le_refl 0) (by omega) (by omega) addr empty)

/-- Only the file that the scan finds counts. -/
theorem argsKept_iff (file : lastStab stabs N_SO 0 stabs.length addr.toNat = some f)
    (readSo : stabs[f]? = some so) :
    ArgsKept stabs addr ↔
      (∀ g fn, lastStab stabs N_FUN f (fileEnd stabs f) addr.toNat = some g →
        stabs[g]? = some fn → countedArgs stabs addr so fn g (functionEnd stabs f g) =
          argCount stabs (g + 1) (functionEnd stabs f g)) ∧
      (lastStab stabs N_FUN f (fileEnd stabs f) addr.toNat = none →
        firstFunction stabs f < fileEnd stabs f →
        ¬(addr = 0xffffffff ∧ so.nValue = 0xffffffff) →
          NoneCounted stabs addr so f (firstFunction stabs f)) := by
  constructor
  · exact fun kept => kept f so file readSo
  · intro here f' so' file' readSo'
    obtain rfl : f = f' := Option.some.inj (file.symm.trans file')
    obtain rfl : so = so' := Option.some.inj (readSo.symm.trans readSo')
    exact here

end Narg

/-- `debuginfo_eip` counts the parameters of the function that contains the address, and none
without one, exactly when as many of them follow the stab on which the line search ends. -/
theorem debuginfoEip_narg_iff (stabs : List Stab) (stabstr : List UInt8) (addr : UInt32)
    (wf : WellFormed stabs) (kernel : ULIM ≤ addr) :
    ReturnsNarg stabs stabstr addr (parameters stabs addr) ↔
      if stabstr.getLast? = some 0 then ArgsKept stabs addr else parameters stabs addr = 0 := by
  split
  next terminated =>
    cases file : lastStab stabs N_SO 0 stabs.length addr.toNat with
    | none =>
      have empty : parameters stabs addr = 0 := by simp [parameters, containingFunction, file]
      rw [empty, iff_true_left (wf.narg_outside kernel terminated file)]
      intro f so file'
      rw [file] at file'
      cases file'
    | some f =>
      obtain ⟨_, fHigh, _, so, readSo, _⟩ := lastStab_spec file
      rw [argsKept_iff file readSo]
      cases function : lastStab stabs N_FUN f (fileEnd stabs f) addr.toNat with
      | some g =>
        obtain ⟨_, _, _, fn, readFn, _⟩ := lastStab_spec function
        have number : parameters stabs addr = argCount stabs (g + 1) (functionEnd stabs f g) := by
          simp [parameters, containingFunction, file, function]
        rw [number, (wf.narg_function kernel terminated file readSo function readFn).iff]
        constructor
        · intro same
          refine ⟨fun g' fn' found readFn' => ?_, fun none => by cases none⟩
          cases found
          obtain rfl : fn = fn' := Option.some.inj (readFn.symm.trans readFn')
          exact same
        · exact fun kept => kept.1 g fn rfl readFn
      | none =>
        have empty : parameters stabs addr = 0 := by
          simp [parameters, containingFunction, file, function]
        have vacuous : ∀ g fn, none = some g → stabs[g]? = some fn →
            countedArgs stabs addr so fn g (functionEnd stabs f g) =
              argCount stabs (g + 1) (functionEnd stabs f g) := by
          intro g fn found
          cases found
        rw [empty, and_iff_right vacuous, lastAddr_iff, lastAddr_iff]
        by_cases wraps : addr.toNat = 4294967295 ∧ so.nValue.toNat = 4294967295
        · rw [iff_true_left (wf.narg_wrapped kernel terminated file readSo wraps.1 wraps.2)]
          exact fun _ _ noWrap => absurd wraps noWrap
        by_cases later : firstFunction stabs f < fileEnd stabs f
        · rw [wf.narg_before kernel terminated file readSo wraps function later]
          exact ⟨fun counted _ _ _ => counted, fun all => all rfl later wraps⟩
        · have searches := wf.searches_noFunction file readSo wraps later
          rw [iff_true_left (searches.narg_zero kernel terminated (Nat.le_succ f))]
          exact fun _ above => absurd above later
  next refused => exact (narg_refused kernel refused).iff.trans eq_comm

/-- A function with a parameter, which is repeated after its first line. -/
def repeatedTable : List Stab :=
  [⟨1, 0, 7, 0⟩, ⟨1, 0x64, 0, 0xf0100000⟩, ⟨8, 0x24, 0, 0xf0100010⟩, ⟨0, 0xa0, 0, 8⟩,
    ⟨0, 0x44, 7, 0⟩, ⟨0, 0xa0, 0, 8⟩, ⟨0, 0x40, 0, 1⟩, ⟨0, 0x44, 8, 9⟩]

theorem debuginfoEip_narg_iff_repeated : ReturnsNarg repeatedTable smallStrings 0xf0100013 1 := by
  refine (debuginfoEip_narg_iff repeatedTable smallStrings 0xf0100013
    ⟨by decide, by decide, by decide, by decide⟩ (by decide)).mpr ?_
  rw [if_pos (by decide +kernel), argsKept_iff (f := 1) rfl rfl]
  refine ⟨fun g fn function readFn => ?_, fun absent => by cases absent⟩
  cases function
  cases readFn
  decide

/-- The same function with its parameter once, as the compiler writes it. -/
def parameterTable : List Stab :=
  [⟨1, 0, 5, 0⟩, ⟨1, 0x64, 0, 0xf0100000⟩, ⟨8, 0x24, 0, 0xf0100010⟩, ⟨0, 0xa0, 0, 8⟩,
    ⟨0, 0x44, 7, 0⟩, ⟨0, 0x44, 8, 9⟩]

/-- No parameter is counted. -/
theorem debuginfoEip_narg_parameter :
    WellFormed parameterTable ∧ containingFunction parameterTable 0xf0100013 = some (2, 6) ∧
      parameters parameterTable 0xf0100013 = 1 ∧
      ¬ReturnsNarg parameterTable smallStrings 0xf0100013
        (parameters parameterTable 0xf0100013) := by
  refine ⟨⟨by decide, by decide, by decide, by decide⟩, by decide, by decide, ?_⟩
  have searches :
      Searches parameterTable 0xf0100013 1 6 2 6 4 5 ⟨8, 0x24, 0, 0xf0100010⟩ ⟨0, 0x44, 7, 0⟩ :=
    ⟨⟨by decide, rfl, rfl, rfl⟩, rfl, rfl⟩
  rw [(searches.narg (by decide) (by decide +kernel)).iff]
  decide

end Jos
