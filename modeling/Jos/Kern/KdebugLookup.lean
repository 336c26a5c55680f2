import Jos.Kern.KdebugReport
import Mathlib.Data.List.Infix

/-!
# debuginfo_eip is a linear lookup

The lookup that the three nested searches stand for: scan for the last source file, in its
span for the last function, in the function's span for the last line.
-/
namespace Jos

open Library

def atOrBelow (stabs : List Stab) (type : Int) (bound i : Nat) : Bool :=
  (stabKey stabs type i).any fun v => v ≤ bound

/-- The last stab of the type in `[lo, hi)` at or below `bound`. -/
def lastStab (stabs : List Stab) (type : Int) (lo hi bound : Nat) : Option Nat :=
  scanLast (atOrBelow stabs type bound) lo hi

/-- The span of stab `i` runs to the next stab of the type before `hi`. -/
def spanEnd (stabs : List Stab) (type : Int) (i hi : Nat) : Nat :=
  scanFirst (ofType stabs type) (hi - (i + 1)) (i + 1)

/-- The function stab and the line stab that a linear scan finds for an address. -/
def linearLookup (stabs : List Stab) (addr : UInt32) : Option (Stab × Stab) := do
  let f ← lastStab stabs N_SO 0 stabs.length addr.toNat
  let fileEnd := spanEnd stabs N_SO f stabs.length
  let g ← lastStab stabs N_FUN f fileEnd addr.toNat
  let fn ← stabs[g]?
  let k ← lastStab stabs N_SLINE g (spanEnd stabs N_FUN g fileEnd) (addr.toNat - fn.nValue.toNat)
  let line ← stabs[k]?
  pure (fn, line)

/-- Two addresses, where present, are in order and not exactly one byte apart. -/
def InOrder (a b : Option Nat) : Prop := ∀ v ∈ a, ∀ w ∈ b, v ≤ w ∧ w ≠ v + 1

instance (a b : Option Nat) : Decidable (InOrder a b) :=
  inferInstanceAs (Decidable (∀ v ∈ a, ∀ w ∈ b, v ≤ w ∧ w ≠ v + 1))

/-- The stabs of one type in `[lo, hi)` have nondecreasing addresses, no two of them exactly
one byte apart. -/
def Spaced (stabs : List Stab) (type : Int) (lo hi : Nat) : Prop :=
  ∀ j < hi, ∀ i < j, lo ≤ i → InOrder (stabKey stabs type i) (stabKey stabs type j)

instance (stabs : List Stab) (type : Int) (lo hi : Nat) : Decidable (Spaced stabs type lo hi) :=
  inferInstanceAs (Decidable
    (∀ j < hi, ∀ i < j, lo ≤ i → InOrder (stabKey stabs type i) (stabKey stabs type j)))

/-- The table that the linker makes: a header entry, then each searched type in order inside
the ranges in which it is searched. -/
structure WellFormed (stabs : List Stab) : Prop where
  header : ∀ s ∈ stabs.head?, s.type = 0
  files : Spaced stabs N_SO 0 stabs.length
  functions : ∀ f < stabs.length, ofType stabs N_SO f = true →
    Spaced stabs N_FUN f (spanEnd stabs N_SO f stabs.length)
  lines : ∀ f < stabs.length, ofType stabs N_SO f = true →
    ∀ g < spanEnd stabs N_SO f stabs.length, f ≤ g → ofType stabs N_FUN g = true →
      Spaced stabs N_SLINE g (spanEnd stabs N_FUN g (spanEnd stabs N_SO f stabs.length))

/-! ### One search is one scan -/

section Scan

variable {stabs : List Stab} {type : Int} {lo hi i bound : Nat}

theorem stabKey_index_nonneg {j : Int} {v : Nat} (key : stabKey stabs type j = some v) :
    0 ≤ j := by
  obtain ⟨s, read, _⟩ := stabKey_eq_some_iff.mp key
  exact (readAt_eq_ok_iff.mp read).1

theorem atOrBelow_iff :
    atOrBelow stabs type bound i = true ↔ ∃ v, stabKey stabs type i = some v ∧ v ≤ bound := by
  simp [atOrBelow, Option.any_eq_true]

/-- What a successful scan has found. -/
theorem lastStab_spec (found : lastStab stabs type lo hi bound = some i) :
    lo ≤ i ∧ i < hi ∧ ofType stabs type i = true ∧
      ∃ s, stabs[i]? = some s ∧ s.type = type ∧ s.nValue.toNat ≤ bound := by
  obtain ⟨low, high, here, _⟩ := scanLast_eq_some_iff.mp found
  obtain ⟨v, key, little⟩ := atOrBelow_iff.mp here
  obtain ⟨s, read, same, rfl⟩ := stabKey_eq_some_iff.mp key
  exact ⟨low, high, by simp [ofType, key], s, readAt_natCast_iff.mp read, same, little⟩

/-- The same of the stab that is read there. -/
theorem lastStab_read {s : Stab} (found : lastStab stabs type lo hi bound = some i)
    (read : stabs[i]? = some s) :
    lo ≤ i ∧ i < hi ∧ s.type = type ∧ s.nValue.toNat ≤ bound := by
  obtain ⟨low, high, _, s', read', same, little⟩ := lastStab_spec found
  obtain rfl : s = s' := Option.some.inj (read.symm.trans read')
  exact ⟨low, high, same, little⟩

theorem Spaced.ascending (spaced : Spaced stabs type lo hi) :
    Ascending (stabKey stabs type) lo ((hi : Int) - 1) := by
  intro i j v w low order high keyI keyJ
  obtain ⟨i, rfl⟩ := Int.eq_ofNat_of_zero_le (stabKey_index_nonneg keyI)
  obtain ⟨j, rfl⟩ := Int.eq_ofNat_of_zero_le (stabKey_index_nonneg keyJ)
  exact (spaced j (by omega) i (by omega) (by omega) v keyI w keyJ).1

theorem Spaced.apart (spaced : Spaced stabs type lo hi) (a : Nat) :
    Apart stabs type lo ((hi : Int) - 1) a := by
  intro i j lowI highI lowJ highJ keyI keyJ
  obtain ⟨i, rfl⟩ := Int.eq_ofNat_of_zero_le (stabKey_index_nonneg keyI)
  obtain ⟨j, rfl⟩ := Int.eq_ofNat_of_zero_le (stabKey_index_nonneg keyJ)
  rcases Nat.lt_trichotomy i j with before | rfl | after
  · exact (spaced j (by omega) i before (by omega) _ keyI _ keyJ).2 rfl
  · rw [keyI, Option.some.injEq] at keyJ
    omega
  · have := (spaced i (by omega) j after (by omega) _ keyJ _ keyI).1
    omega

theorem spanEnd_spec (inside : i < hi) :
    i < spanEnd stabs type i hi ∧ spanEnd stabs type i hi ≤ hi ∧
      (spanEnd stabs type i hi < hi → ofType stabs type (spanEnd stabs type i hi) = true) ∧
      ∀ j, i < j → j < spanEnd stabs type i hi → ofType stabs type j = false := by
  obtain ⟨low, high, stop, none⟩ := scanFirst_eq_iff.mp
    (rfl : scanFirst (ofType stabs type) (hi - (i + 1)) (i + 1) = _)
  unfold spanEnd
  exact ⟨by omega, by omega, fun below => stop (by omega), fun j above below => none j above below⟩

/-- The search wraps around only if the stab that the scan finds is at the last address. -/
theorem Spaced.wrapFree (spaced : Spaced stabs type lo hi) {s : Stab} {a : Nat}
    (found : lastStab stabs type lo hi a = some i) (read : stabs[i]? = some s)
    (proper : ¬(a = 4294967295 ∧ s.nValue.toNat = 4294967295)) :
    WrapFree stabs type lo ((hi : Int) - 1) a := by
  intro j low high key
  by_contra large
  obtain ⟨_, _, _, last⟩ := scanLast_eq_some_iff.mp found
  obtain ⟨below, inside, same, little⟩ := lastStab_read found read
  have key' := stabKey_of_read read same
  have bound := stabKey_lt key
  obtain ⟨n, rfl⟩ := Int.eq_ofNat_of_zero_le (stabKey_index_nonneg key)
  rcases Nat.lt_trichotomy n i with before | rfl | after
  · have := (spaced i inside n before (by omega) _ key _ key').1
    omega
  · rw [key, Option.some.injEq] at key'
    omega
  · have := last n after (by omega)
    rw [atOrBelow_iff.mpr ⟨a, key, Nat.le_refl a⟩] at this
    cases this

theorem spanEnd_eq {e : Nat} (after : i < e) (below : e ≤ hi)
    (stop : e < hi → ofType stabs type e = true)
    (none : ∀ j, i < j → j < e → ofType stabs type j = false) : spanEnd stabs type i hi = e :=
  scanFirst_eq_iff.mpr ⟨after, by omega, fun short => stop (by omega), none⟩

/-- On a spaced range `stab_binsearch` returns what a linear scan finds, with its span. -/
theorem stabBinsearch_scan (addr : UInt32) (high : hi ≤ stabs.length)
    (spaced : Spaced stabs type lo hi)
    (wrapFree : WrapFree stabs type lo ((hi : Int) - 1) addr.toNat)
    (found : lastStab stabs type lo hi addr.toNat = some i) :
    stabBinsearch stabs lo ((hi : Int) - 1) type addr =
      .ok ((i : Int), (spanEnd stabs type i hi : Int) - 1) := by
  obtain ⟨low, inside, here, last⟩ := scanLast_eq_some_iff.mp found
  obtain ⟨v, key, little⟩ := atOrBelow_iff.mp here
  obtain ⟨left, right, returned, enclosed⟩ := stabBinsearch_enclosed (by omega) (by omega)
    (by omega) spaced.ascending (spaced.apart addr.toNat) wrapFree
    ⟨i, v, by omega, by omega, key, little⟩
  have leftLow := enclosed.left_in
  have ordered := enclosed.ordered
  have rightHigh := enclosed.right_in
  obtain ⟨w, leftKey, leftLittle⟩ := enclosed.found
  -- both are the last key at or below the address
  have same : left = i := by
    rcases Int.lt_trichotomy left i with before | equal | after
    · have := enclosed.above spaced.ascending before (by omega) key
      omega
    · exact equal
    · obtain ⟨n, rfl⟩ := Int.eq_ofNat_of_zero_le (by omega : 0 ≤ left)
      have := last n (by omega) (by omega)
      rw [atOrBelow_iff.mpr ⟨w, leftKey, leftLittle⟩] at this
      cases this
  -- and no key lies between it and the end of its span
  obtain ⟨e, atE⟩ := Int.eq_ofNat_of_zero_le (by omega : 0 ≤ right + 1)
  have edge : spanEnd stabs type i hi = e := by
    refine spanEnd_eq (by omega) (by omega) (fun below => ?_) fun j above below => ?_
    · rcases enclosed.stop with end_ | ⟨x, rightKey, _⟩
      · omega
      · rw [ofType, ← atE, rightKey, Option.isSome_some]
    · rw [ofType, enclosed.none j (by omega) (by omega), Option.isSome_none]
  rw [returned, same, edge, ← atE, Int.add_sub_cancel]

/-- The region that a search leaves: the stab that the scan finds with its span, else what comes
before the first stab of the type, if there is one. -/
def scanRegion (stabs : List Stab) (type : Int) (lo hi bound : Nat) : Nat × Nat :=
  match lastStab stabs type lo hi bound with
  | some i => (i, spanEnd stabs type i hi)
  | none => (lo, if spanEnd stabs type lo hi < hi then spanEnd stabs type lo hi else lo)

/-- On a spaced range that begins with a stab of another type, the search leaves that region. -/
theorem stabBinsearch_region (addr : UInt32) (inside : lo < hi) (high : hi ≤ stabs.length)
    (spaced : Spaced stabs type lo hi) (other : ofType stabs type lo = false)
    (wrapFree : ∀ i, lastStab stabs type lo hi addr.toNat = some i →
      WrapFree stabs type lo ((hi : Int) - 1) addr.toNat) :
    stabBinsearch stabs lo ((hi : Int) - 1) type addr =
      .ok (((scanRegion stabs type lo hi addr.toNat).1 : Int),
        ((scanRegion stabs type lo hi addr.toNat).2 : Int) - 1) := by
  unfold scanRegion
  cases found : lastStab stabs type lo hi addr.toNat with
  | some i => exact stabBinsearch_scan addr high spaced (wrapFree i found) found
  | none =>
    have clear := scanLast_eq_none_iff.mp found
    -- every stab of the type lies above the address
    have only : OnlyAbove (stabKey stabs type) addr.toNat lo ((hi : Int) - 1) := by
      refine .of_all fun i v above below key => ?_
      obtain ⟨n, rfl⟩ := Int.eq_ofNat_of_zero_le (by omega : 0 ≤ i)
      by_contra little
      have here := clear n (by omega) (by omega)
      rw [atOrBelow_iff.mpr ⟨v, key, by omega⟩] at here
      cases here
    have first : stabKey stabs type lo = none := by simpa [ofType] using other
    obtain ⟨left, right, returned, missed | ⟨edge, ordered, inside', none, next⟩⟩ :=
      stabBinsearch_onlyAbove (by omega) (by omega) (by omega) only
    · have noSpan : ¬spanEnd stabs type lo hi < hi := by
        intro below
        obtain ⟨after, _, stop, _⟩ := @spanEnd_spec stabs type _ _ inside
        have typed := stop below
        rw [ofType, missed.none _ (by omega) (by omega)] at typed
        cases typed
      rw [returned, missed.left, missed.right, if_neg noSpan]
    · rw [if_pos first] at edge
      obtain ⟨e, atE⟩ := Int.eq_ofNat_of_zero_le (by omega : 0 ≤ right + 1)
      have span : spanEnd stabs type lo hi = e := by
        refine spanEnd_eq (by omega) (by omega) (fun _ => ?_) fun j above below => ?_
        · rw [ofType, ← atE, Option.isSome_iff_ne_none]
          exact next
        · rw [ofType, none j (by omega) (by omega), Option.isSome_none]
      rw [returned, edge, span, if_pos (by omega), ← atE, Int.add_sub_cancel]

end Scan

/-! ### Three searches are three scans -/

/-- Where the stabs of the file at `f` end, and in it those of the function at `g`. -/
abbrev fileEnd (stabs : List Stab) (f : Nat) : Nat := spanEnd stabs N_SO f stabs.length

abbrev functionEnd (stabs : List Stab) (f g : Nat) : Nat := spanEnd stabs N_FUN g (fileEnd stabs f)

/-- The first function stab of the file at `f`, or where the file ends. -/
abbrev firstFunction (stabs : List Stab) (f : Nat) : Nat := functionEnd stabs f f

section Lookup

variable {stabs : List Stab} {addr : UInt32} {f g k : Nat} {fn line : Stab}

theorem fileEnd_bounds (inside : f < stabs.length) :
    f < fileEnd stabs f ∧ fileEnd stabs f ≤ stabs.length := by
  obtain ⟨after, high, _⟩ := @spanEnd_spec stabs N_SO _ _ inside
  exact ⟨after, high⟩

theorem functionEnd_bounds (inside : g < fileEnd stabs f) :
    g < functionEnd stabs f g ∧ functionEnd stabs f g ≤ fileEnd stabs f := by
  obtain ⟨after, high, _⟩ := @spanEnd_spec stabs N_FUN _ _ inside
  exact ⟨after, high⟩

theorem WellFormed.functions_spaced (wf : WellFormed stabs) {bound : Nat}
    (file : lastStab stabs N_SO 0 stabs.length bound = some f) :
    Spaced stabs N_FUN f (fileEnd stabs f) := by
  obtain ⟨_, inside, isFile, _⟩ := lastStab_spec file
  exact wf.functions f inside isFile

theorem WellFormed.lines_spaced (wf : WellFormed stabs) {bound : Nat}
    (file : lastStab stabs N_SO 0 stabs.length bound = some f)
    (function : lastStab stabs N_FUN f (fileEnd stabs f) bound = some g) :
    Spaced stabs N_SLINE g (functionEnd stabs f g) := by
  obtain ⟨_, inside, isFile, _⟩ := lastStab_spec file
  obtain ⟨after, inside', isFunction, _⟩ := lastStab_spec function
  exact wf.lines f inside isFile g inside' after isFunction

/-- The header at index 0 is no source file. -/
theorem WellFormed.file_pos (wf : WellFormed stabs) {bound : Nat}
    (file : lastStab stabs N_SO 0 stabs.length bound = some f) : 0 < f := by
  obtain ⟨_, _, _, so, readF, soType, _⟩ := lastStab_spec file
  by_contra zero
  obtain rfl : f = 0 := by omega
  have header := wf.header so (by simpa [List.head?_eq_getElem?] using readF)
  rw [soType] at header
  cases header

theorem WellFormed.fileSearch (wf : WellFormed stabs)
    (wrapFree : WrapFree stabs N_SO 0 ((stabs.length : Int) - 1) addr.toNat)
    (file : lastStab stabs N_SO 0 stabs.length addr.toNat = some f) :
    stabBinsearch stabs 0 ((stabs.length : Int) - 1) N_SO addr =
      .ok ((f : Int), (fileEnd stabs f : Int) - 1) :=
  stabBinsearch_scan addr (le_refl _) wf.files wrapFree file

/-- The file search and the function search end on what the scans find. -/
theorem WellFormed.lineRange (wf : WellFormed stabs)
    (file : lastStab stabs N_SO 0 stabs.length addr.toNat = some f)
    (wrapFreeFile : WrapFree stabs N_SO 0 ((stabs.length : Int) - 1) addr.toNat)
    (function : lastStab stabs N_FUN f (fileEnd stabs f) addr.toNat = some g)
    (wrapFreeFun : WrapFree stabs N_FUN f ((fileEnd stabs f : Int) - 1)
      addr.toNat)
    (readFn : stabs[g]? = some fn) :
    LineRange stabs addr f (fileEnd stabs f) g
      (functionEnd stabs f g) fn := by
  obtain ⟨_, fHigh, isFile, _⟩ := lastStab_spec file
  obtain ⟨_, fileHigh⟩ := fileEnd_bounds fHigh
  exact ⟨wf.file_pos file, wf.fileSearch wrapFreeFile file,
    stabBinsearch_scan addr fileHigh (wf.functions_spaced file) wrapFreeFun function, readFn⟩

/-- And so does the line search, which is relative to the function's address. -/
theorem WellFormed.searches (wf : WellFormed stabs)
    (file : lastStab stabs N_SO 0 stabs.length addr.toNat = some f)
    (wrapFreeFile : WrapFree stabs N_SO 0 ((stabs.length : Int) - 1) addr.toNat)
    (function : lastStab stabs N_FUN f (fileEnd stabs f) addr.toNat = some g)
    (wrapFreeFun : WrapFree stabs N_FUN f ((fileEnd stabs f : Int) - 1)
      addr.toNat)
    (readFn : stabs[g]? = some fn)
    (lines : lastStab stabs N_SLINE g (functionEnd stabs f g)
      (addr.toNat - fn.nValue.toNat) = some k)
    (wrapFreeLine : WrapFree stabs N_SLINE g
      ((functionEnd stabs f g : Int) - 1)
      (addr.toNat - fn.nValue.toNat))
    (readLine : stabs[k]? = some line) :
    Searches stabs addr f (fileEnd stabs f) g
      (functionEnd stabs f g) k
      (spanEnd stabs N_SLINE k (functionEnd stabs f g))
      fn line := by
  obtain ⟨_, fHigh, _⟩ := lastStab_spec file
  obtain ⟨_, gHigh, _, fnSmall⟩ := lastStab_read function readFn
  obtain ⟨_, fileHigh⟩ := fileEnd_bounds fHigh
  obtain ⟨inside, functionHigh⟩ := functionEnd_bounds gHigh
  have spaced := wf.lines_spaced file function
  have relative : (addr - fn.nValue).toNat = addr.toNat - fn.nValue.toNat :=
    UInt32.toNat_sub_of_le _ _ (UInt32.le_iff_toNat_le.mpr fnSmall)
  rw [← relative] at lines wrapFreeLine
  have searchLines := stabBinsearch_scan (addr - fn.nValue) (by omega) spaced wrapFreeLine lines
  refine ⟨wf.lineRange file wrapFreeFile function wrapFreeFun readFn, ?_, readLine⟩
  rw [lineAddr, if_pos inside]
  exact searchLines

end Lookup

/-- `debuginfo_eip` equals the linear lookup on every table that the linker makes. -/
theorem debuginfoEip_eq_linearLookup (stabs : List Stab) (stabstr : List UInt8) (addr : UInt32)
    (wf : WellFormed stabs) (terminated : stabstr.getLast? = some 0) (kernel : ULIM ≤ addr)
    (small : addr < 0xffffffff) (fn line : Stab)
    (found : linearLookup stabs addr = some (fn, line)) :
    ∃ info, debuginfoEip stabs stabstr addr = .ok (0, info) ∧
      info.eipFnAddr = fn.nValue ∧
      info.eipFnName = (if fn.nStrx.toNat < stabstr.length
        then .stabstr fn.nStrx.toNat else .unknown) ∧
      info.eipFnNamelen = ((info.eipFnName.object stabstr).takeWhile
        fun b => b ≠ 0 ∧ b ≠ ':'.toUInt8).length ∧
      info.eipLine = line.nDesc.toNat := by
  simp only [linearLookup, Option.bind_eq_bind, Option.bind_eq_some_iff, Option.pure_def,
    Option.some.injEq, Prod.mk.injEq] at found
  obtain ⟨f, file, g, function, fn, readFn, k, lines, line, readLine, rfl, rfl⟩ := found
  have smallAddr : addr.toNat < 4294967295 := by
    simpa [UInt32.lt_iff_toNat_lt] using small
  have searches := wf.searches file (wrapFree_of_lt smallAddr) function
    (wrapFree_of_lt smallAddr) readFn lines (wrapFree_of_lt (by omega)) readLine
  -- the function's span is not empty, so its stab gives the name and the address
  have inside := (functionEnd_bounds (lastStab_spec function).2.1).1
  refine ⟨_, searches.returned kernel terminated, if_pos inside, if_pos inside, rfl, rfl⟩

/-- A file with one function of two lines, as the assembler writes it. -/
def smallTable : List Stab :=
  [⟨1, 0, 5, 0⟩, ⟨1, 0x64, 0, 0xf0100000⟩, ⟨8, 0x24, 0, 0xf0100010⟩, ⟨0, 0x44, 7, 0⟩,
    ⟨0, 0x44, 8, 9⟩]

def smallStrings : List UInt8 :=
  [0] ++ "init.c".toUTF8.toList ++ [0] ++ "test:F1".toUTF8.toList ++ [0]

theorem debuginfoEip_eq_linearLookup_small :
    ∃ info, debuginfoEip smallTable smallStrings 0xf0100017 = .ok (0, info) ∧
      info.eipFnAddr = 0xf0100010 ∧ info.eipFnName = .stabstr 8 ∧
      info.eipFnNamelen = 4 ∧ info.eipLine = 7 := by
  obtain ⟨info, returned, fnAddr, fnName, namelen, eipLine⟩ :=
    debuginfoEip_eq_linearLookup smallTable smallStrings 0xf0100017
      ⟨by decide, by decide, by decide, by decide⟩ (by decide +kernel) (by decide) (by decide)
      ⟨8, 0x24, 0, 0xf0100010⟩ ⟨0, 0x44, 7, 0⟩ (by decide)
  have name : info.eipFnName = .stabstr 8 := by
    rw [fnName, if_pos (by decide +kernel)]
    rfl
  refine ⟨info, returned, fnAddr, name, ?_, eipLine⟩
  rw [namelen, name]
  decide +kernel

end Jos
