import Jos.Kern.StabPath

/-!
# What debuginfo_eip reports

The file's name and the number of arguments are scans of the table, and everything else is read
off the two stabs on which the function search and the line search end. Whatever the table
holds, those three searches decide the whole of `Eipdebuginfo`.
-/
namespace Jos

open Library

def ofType (stabs : List Stab) (type : Int) (i : Nat) : Bool := (stabKey stabs type i).isSome

/-- A stab that names the file of the stabs after it. -/
def namesFile (stabs : List Stab) (i : Nat) : Bool :=
  stabs[i]?.any fun s => s.type = N_SOL ∨ s.type = N_SO ∧ s.nValue ≠ 0

/-- The name given by the last stab in `[lo, hi)` that names a file. -/
def namedFile (stabs : List Stab) (stabstr : List UInt8) (lo hi : Nat) : Name :=
  match (scanLast (namesFile stabs) lo hi).bind (stabs[·]?) with
  | some s => nameAt stabstr s .unknown
  | none => .unknown

/-- The number of consecutive `N_PSYM` stabs from `lo` on that lie before `hi`. -/
def argCount (stabs : List Stab) (lo hi : Nat) : Nat :=
  scanFirst (fun i => !ofType stabs N_PSYM i) (hi - lo) lo - lo

/-! ### The two scans -/

theorem readAt_natCast_iff {stabs : List Stab} {i : Nat} {s : Stab} :
    readAt stabs (i : Int) = .ok s ↔ stabs[i]? = some s := by
  simp [readAt_eq_ok_iff]

theorem ofType_iff {stabs : List Stab} {type : Int} {i : Nat} {s : Stab}
    (read : stabs[i]? = some s) : ofType stabs type i = true ↔ s.type = type := by
  simp [ofType, stabKey, readAt_natCast_iff.mpr read]

theorem stabKey_of_read {stabs : List Stab} {type : Int} {i : Nat} {s : Stab}
    (read : stabs[i]? = some s) (same : s.type = type) :
    stabKey stabs type i = some s.nValue.toNat :=
  stabKey_eq_some_iff.mpr ⟨s, readAt_natCast_iff.mpr read, same, rfl⟩

theorem namesFile_iff {stabs : List Stab} {i : Nat} {s : Stab} (read : stabs[i]? = some s) :
    namesFile stabs i = true ↔ s.type = N_SOL ∨ s.type = N_SO ∧ s.nValue ≠ 0 := by
  simp [namesFile, read]

/-- The walk back ends on the last stab that names a file, or just before the file. -/
theorem searchFile_eq (stabs : List Stab) {f line : Nat} (near : f ≤ line + 1)
    (high : line < stabs.length) :
    searchFile stabs f line = .ok (match scanLast (namesFile stabs) f (line + 1) with
      | some j => (j : Int)
      | none => (f : Int) - 1) := by
  -- no stab that the walk has passed names a file
  have ended := whileLoop_total
    (fun lline : Int => if lline ≥ (f : Int) then
        (fun s => decide (s.type ≠ N_SOL ∧ (s.type ≠ N_SO ∨ s.nValue = 0))) <$>
          readAt stabs lline
      else pure false)
    (fun lline => pure (lline - 1))
    (fun m => (f : Int) ≤ m + 1 ∧ m ≤ line ∧
      ∀ j : Nat, m < j → j ≤ line → namesFile stabs j = false)
    (fun m => (m - f + 1).toNat) ?_
    (((line : Int) - f + 1).toNat + 1) line ⟨by omega, by omega, fun j _ _ => by omega⟩ (by omega)
  · obtain ⟨m, returned, ⟨above, inside, none⟩, stopped⟩ := ended
    rw [searchFile, returned, Except.ok.injEq]
    by_cases open_ : (f : Int) ≤ m
    · obtain ⟨n, rfl⟩ := Int.eq_ofNat_of_zero_le (by omega : 0 ≤ m)
      obtain ⟨s, read⟩ := readAt_inside stabs (i := (n : Int)) (by omega) (by omega)
      have here : namesFile stabs n = true := by
        rw [namesFile_iff (readAt_natCast_iff.mp read)]
        simp only [ge_iff_le, open_, if_true, read, Exec.map_ok, Except.ok.injEq,
          decide_eq_false_iff_not] at stopped
        tauto
      have found : scanLast (namesFile stabs) f (line + 1) = some n :=
        scanLast_eq_some_iff.mpr ⟨by omega, by omega, here, fun j after below =>
          none j (by omega) (by omega)⟩
      rw [found]
    · have missed : scanLast (namesFile stabs) f (line + 1) = .none :=
        scanLast_eq_none_iff.mpr fun j low below => none j (by omega) (by omega)
      rw [missed]
      dsimp only
      omega
  · rintro m ⟨above, inside, none⟩
    by_cases open_ : (f : Int) ≤ m
    · obtain ⟨n, rfl⟩ := Int.eq_ofNat_of_zero_le (by omega : 0 ≤ m)
      obtain ⟨s, read⟩ := readAt_inside stabs (i := (n : Int)) (by omega) (by omega)
      by_cases more : s.type ≠ N_SOL ∧ (s.type ≠ N_SO ∨ s.nValue = 0)
      · right
        refine ⟨by simp [open_, read, more], (n : Int) - 1, rfl, ⟨by omega, by omega, ?_⟩, by omega⟩
        intro j after below
        by_cases here : j = n
        · rw [here, ← Bool.not_eq_true, namesFile_iff (readAt_natCast_iff.mp read)]
          tauto
        · exact none j (by omega) below
      · left
        simp only [ge_iff_le, open_, if_true, read, Exec.map_ok, more, decide_false]
    · left
      simp [open_]

theorem argCount_eq_iff {stabs : List Stab} {lo hi n : Nat} (range : lo ≤ hi) :
    argCount stabs lo hi = n ↔
      lo + n ≤ hi ∧ (lo + n < hi → ofType stabs N_PSYM (lo + n) = false) ∧
        ∀ i, lo ≤ i → i < lo + n → ofType stabs N_PSYM i = true := by
  obtain ⟨low, high, stop, all⟩ := scanFirst_eq_iff.mp
    (rfl : scanFirst (fun i => !ofType stabs N_PSYM i) (hi - lo) lo = _)
  constructor
  · rintro rfl
    unfold argCount
    rw [Nat.add_sub_cancel' low]
    exact ⟨by omega, fun below => by simpa using stop (by omega), fun i above below => by
      simpa using all i above below⟩
  · rintro ⟨inside, stop', all'⟩
    have found : scanFirst (fun i => !ofType stabs N_PSYM i) (hi - lo) lo = lo + n :=
      scanFirst_eq_iff.mpr ⟨by omega, by omega, fun below => by simp [stop' (by omega)],
        fun i above below => by simp [all' i above below]⟩
    rw [argCount, found, Nat.add_sub_cancel_left]

theorem argCount_of_le {stabs : List Stab} {lo hi : Nat} (empty : hi ≤ lo) :
    argCount stabs lo hi = 0 := by
  rw [argCount, Nat.sub_eq_zero_of_le empty, scanFirst, Nat.sub_self]

theorem argCount_eq_zero_iff {stabs : List Stab} {lo hi : Nat} :
    argCount stabs lo hi = 0 ↔ (lo < hi → ofType stabs N_PSYM lo = false) := by
  by_cases open_ : lo < hi
  · rw [argCount_eq_iff (Nat.le_of_lt open_)]
    constructor
    · exact fun ⟨_, stop, _⟩ => stop
    · exact fun stop => ⟨Nat.le_of_lt open_, stop, fun i above below => by omega⟩
  · exact ⟨fun _ below => absurd below open_, fun _ => argCount_of_le (by omega)⟩

theorem countArgs_eq (stabs : List Stab) {lo hi : Nat} (range : lo ≤ hi)
    (high : hi ≤ stabs.length) : countArgs stabs hi lo = .ok (argCount stabs lo hi : Int) := by
  -- every stab that has been counted is an `N_PSYM`
  have ended := whileLoop_total
    (fun s : Int × Int => if s.1 < (hi : Int) then
        (fun p => decide (p.type = N_PSYM)) <$> readAt stabs s.1 else pure false)
    (fun s => pure (s.1 + 1, s.2 + 1))
    (fun s => ∃ n : Nat, s = (((lo + n : Nat) : Int), (n : Int)) ∧ lo + n ≤ hi ∧
      ∀ i, lo ≤ i → i < lo + n → ofType stabs N_PSYM i = true)
    (fun s => (hi - s.1).toNat) ?_
    (((hi : Int) - lo).toNat + 1) (lo, 0) ⟨0, by simp, by omega, fun i _ _ => by omega⟩ (by simp)
  · obtain ⟨s, returned, ⟨n, rfl, inside, all⟩, stopped⟩ := ended
    rw [countArgs, returned, Exec.map_ok, Except.ok.injEq]
    refine congrArg Int.ofNat ((argCount_eq_iff range).mpr ⟨inside, fun below => ?_, all⟩).symm
    obtain ⟨p, read⟩ := readAt_inside stabs (i := ((lo + n : Nat) : Int)) (by omega) (by omega)
    have below' : ((lo + n : Nat) : Int) < hi := by omega
    rw [if_pos below', read, Exec.map_ok, Except.ok.injEq, decide_eq_false_iff_not] at stopped
    rw [← Bool.not_eq_true, ofType_iff (readAt_natCast_iff.mp read)]
    exact stopped
  · rintro s ⟨n, rfl, inside, all⟩
    by_cases open_ : ((lo + n : Nat) : Int) < hi
    · obtain ⟨p, read⟩ := readAt_inside stabs (i := ((lo + n : Nat) : Int)) (by omega) (by omega)
      by_cases more : p.type = N_PSYM
      · right
        refine ⟨by rw [if_pos open_, read, Exec.map_ok, more]; rfl, _, rfl, ⟨n + 1, ?_, by omega, ?_⟩,
          by dsimp only; omega⟩
        · rfl
        · intro i above below
          by_cases last : i = lo + n
          · rw [last, ofType_iff (readAt_natCast_iff.mp read), more]
          · exact all i above (by omega)
      · left
        rw [if_pos open_, read, Exec.map_ok, Except.ok.injEq, decide_eq_false_iff_not]
        exact more
    · left
      rw [if_neg open_]
      rfl

/-! ### The names -/

theorem unknown_terminated (stabstr : List UInt8) : 0 ∈ Name.unknown.object stabstr := by
  simp [Name.object]

/-- A name is either the old one or points into the string table, so it has a NUL. -/
theorem nameAt_terminated {stabstr : List UInt8} (terminated : stabstr.getLast? = some 0)
    (stab : Stab) {old : Name} (kept : 0 ∈ old.object stabstr) :
    0 ∈ (nameAt stabstr stab old).object stabstr := by
  unfold nameAt
  split
  next inside =>
    have last : (stabstr.drop stab.nStrx.toNat).getLast? = some 0 := by
      rw [List.getLast?_drop, if_neg (by omega), terminated]
    exact List.mem_of_getLast? last
  · exact kept

theorem namedFile_terminated (stabs : List Stab) {stabstr : List UInt8}
    (terminated : stabstr.getLast? = some 0) (lo hi : Nat) :
    0 ∈ (namedFile stabs stabstr lo hi).object stabstr := by
  unfold namedFile
  split
  next s _ => exact nameAt_terminated terminated s (unknown_terminated stabstr)
  · exact unknown_terminated stabstr

/-- A function's name up to its first colon or its end. -/
def namelen (stabstr : List UInt8) (name : Name) : Nat :=
  ((name.object stabstr).takeWhile fun b => b ≠ 0 ∧ b ≠ ':'.toUInt8).length

/-! ### Lookups that find nothing -/

/-- What `debuginfo_eip` stores first. -/
def initialInfo (addr : UInt32) : Eipdebuginfo :=
  { eipFile := .unknown, eipLine := 0, eipFnName := .unknown, eipFnNamelen := 9,
    eipFnAddr := addr, eipFnNarg := 0 }

theorem debuginfoEip_refused (stabs : List Stab) {stabstr : List UInt8} {addr : UInt32}
    (kernel : ULIM ≤ addr) (refused : stabstr.getLast? ≠ some 0) :
    debuginfoEip stabs stabstr addr = .ok (-1, initialInfo addr) := by
  rw [debuginfoEip, if_pos kernel, if_pos refused]
  rfl

theorem debuginfoEip_noFile {stabs : List Stab} {stabstr : List UInt8} {addr : UInt32}
    (kernel : ULIM ≤ addr) (terminated : stabstr.getLast? = some 0) {rfile : Int}
    (none : stabBinsearch stabs 0 ((stabs.length : Int) - 1) N_SO addr = .ok (0, rfile)) :
    debuginfoEip stabs stabstr addr = .ok (-1, initialInfo addr) := by
  rw [debuginfoEip, if_pos kernel, terminated, if_neg (by simp), none]
  rfl

/-! ### The three searches -/

/-- What the line search looks for: it is relative to the function stab if there is one. -/
def lineAddr (addr : UInt32) (fn : Stab) (g gEnd : Nat) : UInt32 :=
  if g < gEnd then addr - fn.nValue else addr

/-- The file search ends on stab `f`, the function search on stab `g`, and what the function
search leaves is the range in which the line is searched. -/
structure LineRange (stabs : List Stab) (addr : UInt32) (f fEnd g gEnd : Nat) (fn : Stab) :
    Prop where
  proper : 0 < f
  file : stabBinsearch stabs 0 ((stabs.length : Int) - 1) N_SO addr =
    .ok ((f : Int), (fEnd : Int) - 1)
  function : stabBinsearch stabs f ((fEnd : Int) - 1) N_FUN addr =
    .ok ((g : Int), (gEnd : Int) - 1)
  readFn : stabs[g]? = some fn

/-- And the line search ends on stab `k`. -/
structure Searches (stabs : List Stab) (addr : UInt32) (f fEnd g gEnd k kEnd : Nat)
    (fn line : Stab) : Prop extends LineRange stabs addr f fEnd g gEnd fn where
  lines : stabBinsearch stabs g ((gEnd : Int) - 1) N_SLINE (lineAddr addr fn g gEnd) =
    .ok ((k : Int), (kEnd : Int) - 1)
  readLine : stabs[k]? = some line

section Searches

variable {stabs : List Stab} {addr : UInt32} {f fEnd g gEnd k kEnd : Nat} {fn line : Stab}

theorem LineRange.bounds (range : LineRange stabs addr f fEnd g gEnd fn) :
    f < fEnd ∧ fEnd ≤ stabs.length ∧ f ≤ g + 1 ∧ g ≤ gEnd ∧ gEnd ≤ fEnd ∧
      (gEnd ≤ g → g = f) := by
  obtain ⟨proper, file, function, _⟩ := range
  obtain ⟨left, right, searched, outcome⟩ :=
    stabBinsearch_total stabs N_SO addr (Int.le_refl 0) (R := (stabs.length : Int) - 1)
      (by omega) (by omega)
  rw [file, Except.ok.injEq, Prod.mk.injEq] at searched
  obtain ⟨rfl, rfl⟩ := searched
  have inFile : f < fEnd ∧ fEnd ≤ stabs.length := by
    rcases outcome with missed | matched
    · have := missed.left
      omega
    · have ordered := matched.ordered
      have right_in := matched.right_in
      omega
  obtain ⟨inside, high⟩ := inFile
  obtain ⟨left, right, searched, outcome⟩ :=
    stabBinsearch_total stabs N_FUN addr (by omega : (0 : Int) ≤ f)
      (by omega : (f : Int) ≤ (fEnd : Int) - 1 + 1) (by omega)
  rw [function, Except.ok.injEq, Prod.mk.injEq] at searched
  obtain ⟨rfl, rfl⟩ := searched
  rcases outcome with missed | matched
  · have left := missed.left
    have right := missed.right
    exact ⟨inside, high, by omega, by omega, by omega, fun _ => by omega⟩
  · obtain ⟨left_in, ordered, right_in, _⟩ := matched
    exact ⟨inside, high, by omega, by omega, by omega, fun _ => by omega⟩

/-- The line search ends, whatever is in its range. -/
theorem LineRange.lineSearch (range : LineRange stabs addr f fEnd g gEnd fn) :
    ∃ left right, stabBinsearch stabs g ((gEnd : Int) - 1) N_SLINE (lineAddr addr fn g gEnd) =
        .ok (left, right) ∧
      (Missed stabs N_SLINE g ((gEnd : Int) - 1) left right ∨
        Matched stabs N_SLINE g ((gEnd : Int) - 1) left right) := by
  obtain ⟨_, high, _, ordered, within, _⟩ := range.bounds
  exact stabBinsearch_total stabs N_SLINE _ (by omega) (by omega) (by omega)

theorem Searches.outcome (searches : Searches stabs addr f fEnd g gEnd k kEnd fn line) :
    Missed stabs N_SLINE g ((gEnd : Int) - 1) k ((kEnd : Int) - 1) ∨
      Matched stabs N_SLINE g ((gEnd : Int) - 1) k ((kEnd : Int) - 1) := by
  obtain ⟨left, right, searched, outcome⟩ := searches.toLineRange.lineSearch
  rw [searches.lines, Except.ok.injEq, Prod.mk.injEq] at searched
  obtain ⟨rfl, rfl⟩ := searched
  exact outcome

theorem Searches.kEnd_le (searches : Searches stabs addr f fEnd g gEnd k kEnd fn line) :
    kEnd ≤ stabs.length := by
  obtain ⟨_, high, _, ordered, within, _⟩ := searches.toLineRange.bounds
  rcases searches.outcome with missed | matched
  · have := missed.right
    omega
  · have := matched.right_in
    omega

/-- What `debuginfo_eip` has stored once the function search has ended. -/
def functionInfo (stabstr : List UInt8) (addr : UInt32) (g gEnd : Nat) (fn : Stab) :
    Eipdebuginfo :=
  let fnName := if g < gEnd then nameAt stabstr fn .unknown else .unknown
  { eipFile := .unknown
    eipLine := 0
    eipFnName := fnName
    eipFnNamelen := namelen stabstr fnName
    eipFnAddr := if g < gEnd then fn.nValue else addr
    eipFnNarg := 0 }

/-- What it has stored when it returns. -/
def report (stabs : List Stab) (stabstr : List UInt8) (addr : UInt32) (f g gEnd k kEnd : Nat)
    (fn line : Stab) : Eipdebuginfo :=
  { functionInfo stabstr addr g gEnd fn with
    eipFile := namedFile stabs stabstr f (g + 1)
    eipLine := line.nDesc.toNat
    eipFnNarg := argCount stabs (k + 1) (kEnd - 1) }

/-- The last part of `debuginfo_eip` names the file and counts the arguments. -/
theorem nameFileAndArgs_eq (stabs : List Stab) (stabstr : List UInt8) (info : Eipdebuginfo)
    (unnamed : info.eipFile = .unknown) (uncounted : info.eipFnNarg = 0) (near : f ≤ g + 1)
    (inside : g < stabs.length) (high : kEnd ≤ stabs.length) :
    nameFileAndArgs stabs stabstr info f g k ((kEnd : Int) - 1) =
      .ok (0, { info with
        eipFile := namedFile stabs stabstr f (g + 1)
        eipFnNarg := argCount stabs (k + 1) (kEnd - 1) }) := by
  have count : (k : Int) < (kEnd : Int) - 1 →
      countArgs stabs ((kEnd : Int) - 1) ((k : Int) + 1) =
        .ok (argCount stabs (k + 1) (kEnd - 1) : Int) := by
    intro open_
    have counted := countArgs_eq stabs (by omega : k + 1 ≤ kEnd - 1) (by omega)
    rwa [Int.natCast_sub (by omega), Int.natCast_add] at counted
  have none : ¬(k : Int) < (kEnd : Int) - 1 → argCount stabs (k + 1) (kEnd - 1) = 0 :=
    fun short => argCount_of_le (by omega)
  have searched := searchFile_eq stabs near inside
  unfold namedFile
  cases named : scanLast (namesFile stabs) f (g + 1) with
  | none =>
    rw [named] at searched
    have before : ¬(f : Int) - 1 ≥ f := by omega
    simp only [nameFileAndArgs, searched, Exec.ok_bind, if_neg before, Exec.pure_eq_ok]
    by_cases open_ : (k : Int) < (kEnd : Int) - 1
    · simp [open_, count, ← unnamed]
    · simp [open_, none, ← unnamed, ← uncounted]
  | some j =>
    rw [named] at searched
    obtain ⟨low, below, _⟩ := scanLast_eq_some_iff.mp named
    obtain ⟨s, read⟩ := readAt_inside stabs (i := (j : Int)) (by omega) (by omega)
    have after : (j : Int) ≥ f := by omega
    simp only [nameFileAndArgs, searched, Exec.ok_bind, if_pos after, Exec.pure_eq_ok, read]
    by_cases open_ : (k : Int) < (kEnd : Int) - 1
    · simp [open_, count, readAt_natCast_iff.mp read, unnamed]
    · simp [open_, none, readAt_natCast_iff.mp read, unnamed, ← uncounted]

/-- What is left of `debuginfo_eip` after the function search. -/
theorem LineRange.debuginfoEip_eq {stabstr : List UInt8} (kernel : ULIM ≤ addr)
    (terminated : stabstr.getLast? = some 0) (range : LineRange stabs addr f fEnd g gEnd fn) :
    debuginfoEip stabs stabstr addr = (do
      let (lfun, rfun) ← stabBinsearch stabs g ((gEnd : Int) - 1) N_SLINE (lineAddr addr fn g gEnd)
      let stab ← readAt stabs lfun
      nameFileAndArgs stabs stabstr
        { functionInfo stabstr addr g gEnd fn with eipLine := stab.nDesc.toNat } f g lfun rfun) := by
  obtain ⟨inside, high, near, ordered, within, missed⟩ := range.bounds
  obtain ⟨proper, file, function, readFn⟩ := range
  have proper' : ¬(f : Int) = 0 := by omega
  rw [debuginfoEip, if_pos kernel, terminated, if_neg (by simp), file]
  simp only [Exec.ok_bind, proper', if_false, debuginfoEipFile, function]
  by_cases found : g < gEnd
  · have nonempty : (g : Int) ≤ (gEnd : Int) - 1 := by omega
    -- the name ends at its first colon or at its NUL
    have cut := strfind_terminated _ ':'.toUInt8
      (nameAt_terminated terminated fn (unknown_terminated stabstr))
    simp only [nonempty, if_true, readAt_natCast_iff.mpr readFn, Exec.ok_bind, Exec.pure_eq_ok,
      cut, lineAddr, functionInfo, namelen, found]
  · have empty : ¬(g : Int) ≤ (gEnd : Int) - 1 := by omega
    obtain rfl := missed (by omega)
    have cut := strfind_terminated _ ':'.toUInt8 (unknown_terminated stabstr)
    simp only [empty, if_false, Exec.ok_bind, Exec.pure_eq_ok, cut, lineAddr, functionInfo,
      namelen, found]

/-- The three searches decide what `debuginfo_eip` returns. -/
theorem Searches.returned {stabstr : List UInt8} (kernel : ULIM ≤ addr)
    (terminated : stabstr.getLast? = some 0)
    (searches : Searches stabs addr f fEnd g gEnd k kEnd fn line) :
    debuginfoEip stabs stabstr addr =
      .ok (0, report stabs stabstr addr f g gEnd k kEnd fn line) := by
  have near := searches.toLineRange.bounds.2.2.1
  have gInside := (List.getElem?_eq_some_iff.mp searches.readFn).1
  rw [searches.toLineRange.debuginfoEip_eq kernel terminated, searches.lines, Exec.ok_bind]
  simp only [readAt_natCast_iff.mpr searches.readLine, Exec.ok_bind]
  rw [nameFileAndArgs_eq stabs stabstr _ rfl rfl near gInside searches.kEnd_le, report]

/-- A line search that falls below the table takes the lookup there. -/
theorem LineRange.faults {stabstr : List UInt8} (kernel : ULIM ≤ addr)
    (terminated : stabstr.getLast? = some 0) (range : LineRange stabs addr f fEnd g gEnd fn)
    {left right : Int}
    (lines : stabBinsearch stabs g ((gEnd : Int) - 1) N_SLINE (lineAddr addr fn g gEnd) =
      .ok (left, right)) (negative : left < 0) :
    debuginfoEip stabs stabstr addr = .error .outOfBounds := by
  have outside : readAt stabs left = .error .outOfBounds := if_neg (by omega)
  rw [range.debuginfoEip_eq kernel terminated, lines, Exec.ok_bind]
  simp only [outside, Exec.error_bind]

/-- So does a file search that falls below the table. -/
theorem fileSearch_faults {stabstr : List UInt8} (kernel : ULIM ≤ addr)
    (terminated : stabstr.getLast? = some 0) {rfile : Int}
    (file : stabBinsearch stabs 0 ((stabs.length : Int) - 1) N_SO addr = .ok (-1, rfile)) :
    debuginfoEip stabs stabstr addr = .error .outOfBounds := by
  have only : rfile = -1 := stabBinsearch_before (Int.le_refl 0) (by omega) (by omega) file
  have outside : readAt stabs (-1) = .error .outOfBounds := rfl
  have function : stabBinsearch stabs (-1) (-1) N_FUN addr = .error .outOfBounds := by
    simp [stabBinsearch, SearchVars.search, whileLoop, SearchVars.probe, slideLeft, outside]
  rw [debuginfoEip, if_pos kernel, terminated, if_neg (by simp), file]
  simp [debuginfoEipFile, only, function]

theorem LineRange.unique (range : LineRange stabs addr f fEnd g gEnd fn)
    {f' fEnd' g' gEnd' : Nat} {fn' : Stab} (other : LineRange stabs addr f' fEnd' g' gEnd' fn') :
    f' = f ∧ fEnd' = fEnd ∧ g' = g ∧ gEnd' = gEnd ∧ fn' = fn := by
  have file := range.file.symm.trans other.file
  simp only [Except.ok.injEq, Prod.mk.injEq] at file
  obtain rfl : f' = f := by omega
  obtain rfl : fEnd' = fEnd := by omega
  have function := range.function.symm.trans other.function
  simp only [Except.ok.injEq, Prod.mk.injEq] at function
  obtain rfl : g' = g := by omega
  obtain rfl : gEnd' = gEnd := by omega
  exact ⟨rfl, rfl, rfl, rfl, Option.some.inj (other.readFn.symm.trans range.readFn)⟩

/-- Whatever the table holds, the file search finds no file, falls below the table, or leads to
a range for the line search. -/
theorem lineRange_cases (stabs : List Stab) (addr : UInt32) :
    (∃ rfile, stabBinsearch stabs 0 ((stabs.length : Int) - 1) N_SO addr = .ok (0, rfile)) ∨
      stabKey stabs N_SO 0 ≠ none ∧ (∃ rfile,
        stabBinsearch stabs 0 ((stabs.length : Int) - 1) N_SO addr = .ok (-1, rfile)) ∨
      ∃ f fEnd g gEnd fn, LineRange stabs addr f fEnd g gEnd fn := by
  obtain ⟨lfile, rfile, file, outcome⟩ :=
    stabBinsearch_total stabs N_SO addr (Int.le_refl 0) (R := (stabs.length : Int) - 1)
      (by omega) (by omega)
  rcases outcome with ⟨rfl, _, _⟩ | ⟨left_in, ordered, right_in, edge, _⟩
  · exact .inl ⟨rfile, file⟩
  by_cases first : lfile = 0
  · subst first
    exact .inl ⟨rfile, file⟩
  right
  by_cases negative : lfile = -1
  · subst negative
    exact .inl ⟨edge rfl, rfile, file⟩
  right
  obtain ⟨lfun, rfun, function, outcome⟩ :=
    stabBinsearch_total stabs N_FUN addr (by omega : 0 ≤ lfile) (by omega : lfile ≤ rfile + 1)
      (by omega)
  have bounds : 0 ≤ lfun ∧ lfun < stabs.length ∧ lfun ≤ rfun + 1 := by
    rcases outcome with ⟨rfl, rfl, _⟩ | matched
    · omega
    · have left_in := matched.left_in
      have ordered := matched.ordered
      have right_in := matched.right_in
      omega
  obtain ⟨low, high, _⟩ := bounds
  obtain ⟨fn, readFn⟩ := readAt_inside stabs low high
  obtain ⟨f, rfl⟩ := Int.eq_ofNat_of_zero_le (by omega : 0 ≤ lfile)
  obtain ⟨g, rfl⟩ := Int.eq_ofNat_of_zero_le low
  refine ⟨f, (rfile + 1).toNat, g, (rfun + 1).toNat, fn, by omega, ?_, ?_, readAt_natCast_iff.mp readFn⟩
  · rw [file, Int.toNat_of_nonneg (by omega), Int.add_sub_cancel]
  · rw [Int.toNat_of_nonneg (by omega), Int.add_sub_cancel, function,
      Int.toNat_of_nonneg (by omega), Int.add_sub_cancel]

/-- A line search that does not fall below the table completes the lookup. -/
theorem LineRange.searches (range : LineRange stabs addr f fEnd g gEnd fn) {left right : Int}
    (lines : stabBinsearch stabs g ((gEnd : Int) - 1) N_SLINE (lineAddr addr fn g gEnd) =
      .ok (left, right)) (nonneg : 0 ≤ left) :
    ∃ k kEnd : Nat, ∃ line, left = (k : Int) ∧ right = (kEnd : Int) - 1 ∧
      Searches stabs addr f fEnd g gEnd k kEnd fn line := by
  obtain ⟨inside, high, near, ordered, within, _⟩ := range.bounds
  have gInside := (List.getElem?_eq_some_iff.mp range.readFn).1
  obtain ⟨left', right', searched, outcome⟩ := range.lineSearch
  rw [lines, Except.ok.injEq, Prod.mk.injEq] at searched
  obtain ⟨rfl, rfl⟩ := searched
  have bounds : left < stabs.length ∧ -1 ≤ right := by
    rcases outcome with missed | matched
    · have first := missed.left
      have last := missed.right
      omega
    · have ordered := matched.ordered
      have right_in := matched.right_in
      omega
  obtain ⟨line, readLine⟩ := readAt_inside stabs nonneg bounds.1
  obtain ⟨k, rfl⟩ := Int.eq_ofNat_of_zero_le nonneg
  refine ⟨k, (right + 1).toNat, line, rfl, by omega, range, ?_, readAt_natCast_iff.mp readLine⟩
  rw [lines, Int.toNat_of_nonneg (by omega), Int.add_sub_cancel]

end Searches

end Jos
