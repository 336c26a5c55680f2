import Jos.Kern.StabBounds
import Mathlib.Algebra.Group.Basic
import Mathlib.Algebra.Group.Int.Defs

/-!
# stab_binsearch in its range

The entries from `L` to `R` are all that the search looks at: a table of these entries alone,
where every other read is a fault, gives the same result. On an ascending range the result is
the bracket of the address.
-/
namespace Jos

open Library

/-- The entries of the table from `L` to `R`, and no others. -/
def window (stabs : List Stab) (L R : Int) : List Stab :=
  (stabs.drop L.toNat).take (R - L + 1).toNat

variable {stabs : List Stab} {type L R : Int}

theorem readAt_window (low : 0 ≤ L) (high : R < stabs.length) {i : Int} (left : L ≤ i)
    (right : i ≤ R) : readAt (window stabs L R) (i - L) = readAt stabs i := by
  obtain ⟨s, read⟩ := readAt_inside stabs (i := i) (by omega) (by omega)
  rw [read]
  obtain ⟨_, entry⟩ := readAt_eq_ok_iff.mp read
  have place : L.toNat + (i - L).toNat = i.toNat := by omega
  rw [readAt_eq_ok_iff, window, List.getElem?_take_of_lt (by omega), List.getElem?_drop, place]
  exact ⟨by omega, entry⟩

/-- The variables of the search, with the indices counted from `L`. -/
def SearchVars.shift (L : Int) (v : SearchVars) : SearchVars :=
  { v with
    l := v.l - L
    r := v.r - L
    regionLeft := v.regionLeft - L
    regionRight := v.regionRight - L }

@[simp] theorem SearchVars.shift_l (L : Int) (v : SearchVars) : (v.shift L).l = v.l - L := rfl

@[simp] theorem SearchVars.shift_r (L : Int) (v : SearchVars) : (v.shift L).r = v.r - L := rfl

theorem slideLeft_window (low : 0 ≤ L) (high : R < stabs.length) {l m : Int} (left : L ≤ l)
    (right : m ≤ R) :
    slideLeft (window stabs L R) type (l - L) (m - L) = (· - L) <$> slideLeft stabs type l m := by
  have fuel : (m - L - (l - L) + 1).toNat + 1 = (m - l + 1).toNat + 1 := by omega
  unfold slideLeft
  rw [fuel]
  -- the slide goes down from `m`, and reads nothing below `l`
  refine whileLoop_map (· - L) (fun m => m ≤ R) ?_ ?_ ?_ _ m right
  · intro m right
    by_cases inside : l ≤ m
    · rw [if_pos (by omega), if_pos inside, readAt_window low high (by omega) right]
    · rw [if_neg (by omega), if_neg inside]
  · intro m _ _
    exact congrArg Except.ok (sub_right_comm m L 1)
  · rintro m m' right _ turn
    cases turn
    omega

theorem probe_window (low : 0 ≤ L) (high : R < stabs.length) {v : SearchVars}
    (ranged : Ranged stabs type L R v) (open_ : v.l ≤ v.r) :
    (v.shift L).probe (window stabs L R) type = SearchVars.shift L <$> v.probe stabs type := by
  have left_in := ranged.left_in
  have right_in := ranged.right_in
  have middle : (v.l + v.r).tdiv 2 = (v.l + v.r) / 2 := Int.tdiv_eq_ediv_of_nonneg (by omega)
  have shifted : (v.l - L + (v.r - L)).tdiv 2 = (v.l + v.r) / 2 - L := by
    rw [Int.tdiv_eq_ediv_of_nonneg (by omega)]
    omega
  obtain ⟨m, slid, above, below, _⟩ := slideLeft_total stabs type (l := v.l)
    (m := (v.l + v.r) / 2) (by omega) (by omega) (by omega)
  have slide := @slideLeft_window stabs type L R low high v.l ((v.l + v.r) / 2) left_in (by omega)
  rw [slid] at slide
  unfold SearchVars.probe
  simp only [SearchVars.shift_l, SearchVars.shift_r, shifted, middle, slide,
    slid, Exec.map_ok, Exec.ok_bind]
  by_cases missed : m < v.l
  · rw [if_pos missed, if_pos (by omega)]
    exact congrArg Except.ok (by simp only [SearchVars.shift, add_sub_right_comm])
  · obtain ⟨s, read⟩ := readAt_inside stabs (i := m) (by omega) (by omega)
    rw [if_neg missed, if_neg (by omega), readAt_window low high (by omega) (by omega), read]
    simp only [Exec.ok_bind]
    -- the three branches compare the same entry with the same address
    have sameAddr : (v.shift L).addr = v.addr := rfl
    by_cases less : s.nValue < v.addr
    · rw [if_pos (sameAddr ▸ less), if_pos less]
      exact congrArg Except.ok (by simp only [SearchVars.shift, add_sub_right_comm])
    rw [if_neg (sameAddr ▸ less), if_neg less]
    by_cases greater : s.nValue > v.addr
    · rw [if_pos (sameAddr ▸ greater), if_pos greater]
      exact congrArg Except.ok (by simp only [SearchVars.shift, sub_right_comm])
    · rw [if_neg (sameAddr ▸ greater), if_neg greater]
      rfl

/-- The search for the whole range and the search in the window take the same turns. -/
theorem search_window (low : 0 ≤ L) (high : R < stabs.length) {v : SearchVars}
    (ranged : Ranged stabs type L R v) :
    (v.shift L).search (window stabs L R) type = SearchVars.shift L <$> v.search stabs type := by
  have fuel : 2 * (v.r - L - (v.l - L) + 1).toNat + 2 = 2 * (v.r - v.l + 1).toNat + 2 := by omega
  unfold SearchVars.search
  simp only [SearchVars.shift_l, SearchVars.shift_r, fuel]
  have open_ : ∀ v : SearchVars, (pure (decide (v.l ≤ v.r)) : Exec Bool) = .ok true → v.l ≤ v.r := by
    intro v go
    simpa using go
  refine whileLoop_map (SearchVars.shift L) (Ranged stabs type L R) ?_ ?_ ?_ _ v ranged
  · intro v _
    simp
  · intro v ranged go
    exact probe_window low high ranged (open_ v go)
  · intro v v' ranged go turn
    exact ranged.kept low high v v' (open_ v go) turn

theorem stabBinsearch_window (low : 0 ≤ L) (range : L ≤ R) (high : R < stabs.length)
    (addr : UInt32) :
    stabBinsearch (window stabs L R) 0 (R - L) type addr =
      (fun p => (p.1 - L, p.2 - L)) <$> stabBinsearch stabs L R type addr := by
  have start := @Ranged.start stabs type L R addr (by omega)
  obtain ⟨v, searched, final, _⟩ := search_total stabs type (Ranged stabs type L R)
    (fun v here => ⟨by have := here.left_in; omega, by have := here.right_in; omega⟩)
    (Ranged.kept low high) _ start
  have windowed := search_window low high start
  rw [searched] at windowed
  simp only [SearchVars.shift, Int.sub_self, Exec.map_ok] at windowed
  unfold stabBinsearch
  simp only [windowed, searched, Exec.ok_bind]
  by_cases matched : v.anyMatches = true
  · have left_in := (final.region matched).1
    have right_in : v.regionRight ≤ R := by
      rw [final.right]
      exact final.right_in
    have fixUp := @slideLeft_window stabs type L R low high (v.regionLeft + 1) v.regionRight
      (by omega) right_in
    rw [add_sub_right_comm] at fixUp
    simp only [matched, not_true_eq_false, if_false, fixUp]
    cases slideLeft stabs type (v.regionLeft + 1) v.regionRight <;> rfl
  · rw [if_pos matched, if_pos matched]
    exact congrArg Except.ok (by dsimp only; rw [sub_right_comm])

/-- The search ends on any table, reads nothing outside `[L, R]`, and leaves its two bounds in the
range or just before it. -/
theorem stabBinsearch_inRange (low : 0 ≤ L) (range : L ≤ R) (high : R < stabs.length)
    (addr : UInt32) :
    ∃ left right, stabBinsearch stabs L R type addr = .ok (left, right) ∧
      stabBinsearch (window stabs L R) 0 (R - L) type addr = .ok (left - L, right - L) ∧
      (L - 1 ≤ left ∧ left ≤ R) ∧ (L - 1 ≤ right ∧ right ≤ R) ∧
      (left = L - 1 → stabKey stabs type L ≠ none) ∧
      ((∀ i, L ≤ i → i ≤ R → stabKey stabs type i = none) → left = L ∧ right = L - 1) := by
  obtain ⟨left, right, returned, outcome⟩ :=
    stabBinsearch_total stabs type addr low (by omega) high
  refine ⟨left, right, returned, ?_, ?_⟩
  · rw [stabBinsearch_window low range high, returned]
    rfl
  · rcases outcome with ⟨rfl, rfl, _⟩ | ⟨left_in, ordered, right_in, edge, i, above, below, typed⟩
    · exact ⟨⟨by omega, range⟩, ⟨by omega, by omega⟩, fun before => by omega, fun _ => ⟨rfl, rfl⟩⟩
    · exact ⟨⟨left_in, by omega⟩, ⟨by omega, right_in⟩, edge,
        fun none => absurd (none i above below) typed⟩

/-- Three lines out of order, the first one at the last address. -/
def unsortedLines : List Stab :=
  [⟨0, 0x24, 0, 0⟩, ⟨0, 0x44, 1, 0xffffffff⟩, ⟨0, 0x44, 2, 7⟩, ⟨0, 0x44, 3, 5⟩]

theorem stabBinsearch_inRange_last :
    ∃ left right, stabBinsearch unsortedLines 1 3 N_SLINE 0xffffffff = .ok (left, right) ∧
      stabBinsearch (window unsortedLines 1 3) 0 (3 - 1) N_SLINE 0xffffffff =
        .ok (left - 1, right - 1) ∧
      ((1 : Int) - 1 ≤ left ∧ left ≤ 3) ∧ ((1 : Int) - 1 ≤ right ∧ right ≤ 3) ∧
      (left = 1 - 1 → stabKey unsortedLines N_SLINE 1 ≠ none) ∧
      ((∀ i, 1 ≤ i → i ≤ 3 → stabKey unsortedLines N_SLINE i = none) → left = 1 ∧ right = 1 - 1) :=
  stabBinsearch_inRange (by decide) (by decide) (by decide) 0xffffffff

/-! ### The bracket of an address -/

/-- On an ascending range that has a stab at or before the address, and no two exactly at the
address and after it, the search returns the last stab at or before the address, and the index
before the first one after it. -/
theorem stabBinsearch_brackets (low : 0 ≤ L) (range : L ≤ R) (high : R < stabs.length)
    (ascending : Ascending (stabKey stabs type) L R) {addr : UInt32} (small : addr < 0xffffffff)
    (apart : Apart stabs type L R addr.toNat)
    (present : (keysUpTo (stabKey stabs type) L R addr.toNat).Nonempty) :
    ∃ left right, stabBinsearch stabs L R type addr = .ok (left, right) ∧
      IsGreatest (keysUpTo (stabKey stabs type) L R addr.toNat) left ∧
      (IsLeast (keysAbove (stabKey stabs type) L R addr.toNat) (right + 1) ∨
        keysAbove (stabKey stabs type) L R addr.toNat = ∅ ∧ right = R) := by
  have smallAddr : addr.toNat < 4294967295 := by
    simpa [UInt32.lt_iff_toNat_lt] using small
  obtain ⟨i, above, below, b, key, little⟩ := present
  obtain ⟨left, right, returned, enclosed⟩ := stabBinsearch_enclosed low range high ascending apart
    (wrapFree_of_lt smallAddr) ⟨i, b, above, below, key, little⟩
  exact ⟨left, right, returned, enclosed.isGreatest ascending, enclosed.isLeast ascending⟩

/-- Two lines at one address and one after them. -/
def repeatedLines : List Stab := [⟨0, 0x44, 1, 0x10⟩, ⟨0, 0x44, 2, 0x10⟩, ⟨0, 0x44, 3, 0x20⟩]

theorem repeatedLines_ascending : Ascending (stabKey repeatedLines N_SLINE) 0 2 := by
  intro i j v w low before high keyI keyJ
  obtain ⟨rfl, rfl⟩ | ⟨rfl, rfl⟩ | ⟨rfl, rfl⟩ :
      (i = 0 ∧ j = 1) ∨ (i = 0 ∧ j = 2) ∨ (i = 1 ∧ j = 2) := by omega
  all_goals
    cases keyI
    cases keyJ
    decide

theorem repeatedLines_apart : Apart repeatedLines N_SLINE 0 2 0x10 := by
  intro i j _ _ low high _
  obtain rfl | rfl | rfl : j = 0 ∨ j = 1 ∨ j = 2 := by omega
  all_goals decide

theorem stabBinsearch_brackets_repeated :
    ∃ left right, stabBinsearch repeatedLines 0 2 N_SLINE 0x10 = .ok (left, right) ∧
      IsGreatest (keysUpTo (stabKey repeatedLines N_SLINE) 0 2 0x10) left ∧
      (IsLeast (keysAbove (stabKey repeatedLines N_SLINE) 0 2 0x10) (right + 1) ∨
        keysAbove (stabKey repeatedLines N_SLINE) 0 2 0x10 = ∅ ∧ right = 2) :=
  stabBinsearch_brackets (by decide) (by decide) (by decide) repeatedLines_ascending (by decide)
    repeatedLines_apart ⟨0, by decide, by decide, 0x10, rfl, by decide⟩

end Jos
