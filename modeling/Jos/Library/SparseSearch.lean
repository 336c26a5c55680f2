import Mathlib.Order.Bounds.Basic
import Mathlib.Order.Defs.LinearOrder
import Mathlib.Tactic.Basic
import Mathlib.Tactic.Order

/-!
# Searching a table whose keys are sparse

A table gives some of its indices a key and leaves the others without one. The linear scans
say what is searched for; a bracket is what a bisection knows about the indices that it has
already excluded, and `Bracket.enclosed` is what it has found when nothing is left.
-/
namespace Library

/-! ### Linear scans -/

/-- The last index in `[lo, hi)` that satisfies `p`. -/
def scanLast (p : Nat → Bool) (lo : Nat) : Nat → Option Nat
  | 0 => none
  | hi + 1 => if hi < lo then none else if p hi then some hi else scanLast p lo hi

theorem scanLast_eq_some_iff {p : Nat → Bool} {lo hi i : Nat} :
    scanLast p lo hi = some i ↔
      lo ≤ i ∧ i < hi ∧ p i = true ∧ ∀ j, i < j → j < hi → p j = false := by
  induction hi with
  | zero => simp [scanLast]
  | succ hi ih =>
    unfold scanLast
    -- the scan looks at `hi` first
    by_cases short : hi < lo
    · simp only [short, if_true, reduceCtorEq, false_iff]
      rintro ⟨low, high, _⟩
      omega
    by_cases top : p hi = true
    · simp only [short, if_false, top, if_true, Option.some.injEq]
      constructor
      · rintro rfl
        exact ⟨by omega, by omega, top, fun j _ _ => by omega⟩
      · rintro ⟨_, high, _, none⟩
        by_contra other
        have := none hi (by omega) (by omega)
        simp [top] at this
    · simp only [short, if_false, top, Bool.false_eq_true]
      rw [ih]
      constructor
      · rintro ⟨low, high, here, none⟩
        refine ⟨low, by omega, here, fun j above below => ?_⟩
        rcases Nat.lt_succ_iff_lt_or_eq.mp below with inner | rfl
        · exact none j above inner
        · simpa using top
      · rintro ⟨low, high, here, none⟩
        have inner : i ≠ hi := by
          rintro rfl
          exact top here
        exact ⟨low, by omega, here, fun j above below => none j above (by omega)⟩

theorem scanLast_eq_none_iff {p : Nat → Bool} {lo hi : Nat} :
    scanLast p lo hi = none ↔ ∀ j, lo ≤ j → j < hi → p j = false := by
  constructor
  · intro missed
    induction hi with
    | zero => exact fun j _ below => absurd below (Nat.not_lt_zero j)
    | succ hi ih =>
      unfold scanLast at missed
      intro j low below
      rw [if_neg (by omega)] at missed
      split at missed
      · cases missed
      next top =>
        rcases Nat.lt_succ_iff_lt_or_eq.mp below with inner | rfl
        · exact ih missed j low inner
        · simpa using top
  · intro clear
    cases found : scanLast p lo hi with
    | none => rfl
    | some i =>
      obtain ⟨low, high, here, _⟩ := scanLast_eq_some_iff.mp found
      rw [clear i low high] at here
      cases here

/-- A scan of `[lo, hi)` is one from the middle, and then one up to it. -/
theorem scanLast_split {p : Nat → Bool} {lo mid hi : Nat} (left : lo ≤ mid) (right : mid ≤ hi) :
    scanLast p lo hi = (scanLast p mid hi).or (scanLast p lo mid) := by
  cases later : scanLast p mid hi with
  | some i =>
    obtain ⟨low, high, here, none⟩ := scanLast_eq_some_iff.mp later
    exact scanLast_eq_some_iff.mpr ⟨by omega, high, here, none⟩
  | none =>
    have clear := scanLast_eq_none_iff.mp later
    rw [Option.none_or]
    cases earlier : scanLast p lo mid with
    | some i =>
      obtain ⟨low, high, here, none⟩ := scanLast_eq_some_iff.mp earlier
      refine scanLast_eq_some_iff.mpr ⟨low, by omega, here, fun j after below => ?_⟩
      by_cases beyond : mid ≤ j
      · exact clear j beyond below
      · exact none j after (by omega)
    | none =>
      have clear' := scanLast_eq_none_iff.mp earlier
      refine scanLast_eq_none_iff.mpr fun j low below => ?_
      by_cases beyond : mid ≤ j
      · exact clear j beyond below
      · exact clear' j low (by omega)

/-- The first of the `count` indices from `lo` that satisfies `p`, or the index after them. -/
def scanFirst (p : Nat → Bool) : Nat → Nat → Nat
  | 0, lo => lo
  | count + 1, lo => if p lo then lo else scanFirst p count (lo + 1)

theorem scanFirst_eq_iff {p : Nat → Bool} {count lo i : Nat} :
    scanFirst p count lo = i ↔
      lo ≤ i ∧ i ≤ lo + count ∧ (i < lo + count → p i = true) ∧
        ∀ j, lo ≤ j → j < i → p j = false := by
  induction count generalizing lo with
  | zero =>
    simp only [scanFirst, Nat.add_zero]
    constructor
    · rintro rfl
      exact ⟨by omega, by omega, by omega, fun j _ _ => by omega⟩
    · rintro ⟨low, high, _⟩
      omega
  | succ count ih =>
    unfold scanFirst
    split
    next here =>
      constructor
      · rintro rfl
        exact ⟨by omega, by omega, fun _ => here, fun j _ _ => by omega⟩
      · rintro ⟨low, _, _, none⟩
        by_contra other
        have := none lo (by omega) (by omega)
        simp [here] at this
    next here =>
      rw [ih]
      constructor
      · rintro ⟨low, high, stop, none⟩
        refine ⟨by omega, by omega, fun below => stop (by omega), fun j above below => ?_⟩
        rcases Nat.eq_or_lt_of_le above with rfl | inner
        · simpa using here
        · exact none j inner below
      · rintro ⟨low, high, stop, none⟩
        have later : i ≠ lo := by
          rintro rfl
          exact here (stop (by omega))
        exact ⟨by omega, by omega, fun below => stop (by omega),
          fun j above below => none j (by omega) below⟩

/-! ### Brackets -/

variable {κ : Type} [LinearOrder κ]

/-- The keys in `[L, R]` come in nondecreasing order. -/
def Ascending (key : Int → Option κ) (L R : Int) : Prop :=
  ∀ i j v w, L ≤ i → i < j → j ≤ R → key i = some v → key j = some w → v ≤ w

omit [LinearOrder κ] in
/-- What has a key lies outside a range without keys. -/
theorem lt_of_no_keys {key : Int → Option κ} {l t i : Int} {v : κ}
    (none : ∀ j, l ≤ j → j ≤ t → key j = none) (here : key i = some v) (low : l ≤ i) : t < i := by
  by_contra reached
  rw [none i low (by omega)] at here
  cases here

/-- The keys in `[L, R]` come in increasing order. -/
def StrictAscending (key : Int → Option κ) (L R : Int) : Prop :=
  ∀ i j v w, L ≤ i → i < j → j ≤ R → key i = some v → key j = some w → v < w

theorem StrictAscending.ascending {key : Int → Option κ} {L R : Int}
    (strict : StrictAscending key L R) : Ascending key L R :=
  fun i j v w low before high keyI keyJ => le_of_lt (strict i j v w low before high keyI keyJ)

theorem StrictAscending.index_lt {key : Int → Option κ} {L R i j : Int} {v w : κ}
    (strict : StrictAscending key L R) (high : i ≤ R) (low : L ≤ j) (keyI : key i = some v)
    (keyJ : key j = some w) (less : v < w) : i < j := by
  rcases Int.lt_trichotomy i j with before | rfl | after
  · exact before
  · rw [keyI, Option.some.injEq] at keyJ
    exact absurd less (keyJ ▸ lt_irrefl v)
  · exact absurd (strict j i w v low after high keyJ keyI) (lt_asymm less)

theorem StrictAscending.index_eq {key : Int → Option κ} {L R i j : Int} {v : κ}
    (strict : StrictAscending key L R) (lowI : L ≤ i) (highI : i ≤ R) (lowJ : L ≤ j) (highJ : j ≤ R)
    (keyI : key i = some v) (keyJ : key j = some v) : i = j := by
  rcases Int.lt_trichotomy i j with before | same | after
  · exact absurd (strict i j v v lowI before highJ keyI keyJ) (lt_irrefl v)
  · exact same
  · exact absurd (strict j i v v lowJ after highI keyJ keyI) (lt_irrefl v)

/-- What bisecting `[L, R]` for `a` knows when `[l, r]` is still open. -/
structure Bracket (key : Int → Option κ) (L R : Int) (a : κ) (l r : Int) : Prop where
  left_in : L ≤ l
  meet : l ≤ r + 1
  right_in : r ≤ R
  below : ∀ i v, L ≤ i → i < l → key i = some v → v ≤ a
  above : ∀ i v, r < i → i ≤ R → key i = some v → a < v
  stop : r = R ∨ ∃ v, key (r + 1) = some v ∧ a < v

namespace Bracket

variable {key : Int → Option κ} {L R l r m t : Int} {a v : κ}

theorem start (range : L ≤ R) : Bracket key L R a L R where
  left_in := by omega
  meet := by omega
  right_in := by omega
  below := fun i _ low high => by omega
  above := fun i _ low high => by omega
  stop := Or.inl rfl

/-- No key in `[l, t]`: the open part starts after `t`. -/
theorem skip (open_ : Bracket key L R a l r) (low : l ≤ t) (high : t ≤ r)
    (none : ∀ i, l ≤ i → i ≤ t → key i = none) : Bracket key L R a (t + 1) r where
  left_in := by have := open_.left_in; omega
  meet := by omega
  right_in := open_.right_in
  below := by
    intro i v above below here
    by_cases old : i < l
    · exact open_.below i v above old here
    · rw [none i (by omega) (by omega)] at here
      cases here
  above := open_.above
  stop := open_.stop

/-- A key at most `a` at `m`, and none in `(m, t]`: the open part starts after `t`. -/
theorem raise (ascending : Ascending key L R) (open_ : Bracket key L R a l r)
    (low : l ≤ m) (mid : m ≤ t) (high : t ≤ r) (here : key m = some v) (small : v ≤ a)
    (none : ∀ i, m < i → i ≤ t → key i = none) : Bracket key L R a (t + 1) r where
  left_in := by have := open_.left_in; omega
  meet := by omega
  right_in := open_.right_in
  below := by
    intro i w above below there
    -- up to `m` the order of the keys decides, after it there is none
    rcases Int.lt_trichotomy i m with before | rfl | after
    · have right := open_.right_in
      exact le_trans (ascending i m w v above before (by omega) there here) small
    · rw [here] at there
      cases there
      exact small
    · rw [none i after (by omega)] at there
      cases there
  above := open_.above
  stop := open_.stop

/-- A key at most `a` at `m`: the open part may start at `m` itself. -/
theorem anchor (ascending : Ascending key L R) (open_ : Bracket key L R a l r)
    (low : l ≤ m) (high : m ≤ r) (here : key m = some v) (small : v ≤ a) :
    Bracket key L R a m r where
  left_in := by have := open_.left_in; omega
  meet := by omega
  right_in := open_.right_in
  below := by
    intro i w above below there
    have right := open_.right_in
    exact le_trans (ascending i m w v above below (by omega) there here) small
  above := open_.above
  stop := open_.stop

/-- A key above `a` at `m`: the open part ends before `m`. -/
theorem lower (ascending : Ascending key L R) (open_ : Bracket key L R a l r)
    (low : l ≤ m) (high : m ≤ r) (here : key m = some v) (large : a < v) :
    Bracket key L R a l (m - 1) where
  left_in := open_.left_in
  meet := by omega
  right_in := by have := open_.right_in; omega
  below := open_.below
  above := by
    intro i w above below there
    -- after `m` the order of the keys decides
    by_cases same : i = m
    · rw [same, here] at there
      cases there
      exact large
    · have left := open_.left_in
      exact lt_of_lt_of_le large
        (ascending m i v w (by omega) (by omega) below here there)
  stop := Or.inr ⟨v, by simpa using here, large⟩

end Bracket

/-- `left` is the last index of `[L, R]` with a key at most `a`, and `right` the last index
before the next key. -/
structure Enclosed (key : Int → Option κ) (L R : Int) (a : κ) (left right : Int) : Prop where
  left_in : L ≤ left
  ordered : left ≤ right
  right_in : right ≤ R
  found : ∃ v, key left = some v ∧ v ≤ a
  none : ∀ i, left < i → i ≤ right → key i = none
  stop : right = R ∨ ∃ v, key (right + 1) = some v ∧ a < v

/-- When nothing is open any more, the last key at or before `r` is the one searched for. -/
theorem Bracket.enclosed {key : Int → Option κ} {L R l r left : Int} {a : κ}
    (closed : Bracket key L R a l r) (empty : r < l) (low : L ≤ left) (high : left ≤ r)
    (here : key left ≠ none) (none : ∀ i, left < i → i ≤ r → key i = none) :
    Enclosed key L R a left r where
  left_in := low
  ordered := high
  right_in := closed.right_in
  found := by
    obtain ⟨v, found⟩ := Option.ne_none_iff_exists'.mp here
    exact ⟨v, found, closed.below left v low (by omega) found⟩
  none := none
  stop := closed.stop

/-- Every key after `left` exceeds `a`. -/
theorem Enclosed.above {key : Int → Option κ} {L R left right : Int} {a : κ}
    (ascending : Ascending key L R) (enclosed : Enclosed key L R a left right)
    {i : Int} {v : κ} (after : left < i) (inside : i ≤ R) (here : key i = some v) : a < v := by
  by_cases near : i ≤ right
  · rw [enclosed.none i after near] at here
    cases here
  -- every key beyond `right` is at least the one that stopped the search
  rcases enclosed.stop with last | ⟨w, next, large⟩
  · omega
  · have left_in := enclosed.left_in
    have ordered := enclosed.ordered
    by_cases same : i = right + 1
    · rw [same, next] at here
      cases here
      exact large
    · exact lt_of_lt_of_le large
        (ascending (right + 1) i w v (by omega) (by omega) inside next here)

/-- The indices in `[L, R]` with a key at most `a`, and those with a key above it. -/
def keysUpTo (key : Int → Option κ) (L R : Int) (a : κ) : Set Int :=
  { i | L ≤ i ∧ i ≤ R ∧ ∃ v, key i = some v ∧ v ≤ a }

def keysAbove (key : Int → Option κ) (L R : Int) (a : κ) : Set Int :=
  { i | L ≤ i ∧ i ≤ R ∧ ∃ v, key i = some v ∧ a < v }

theorem Enclosed.isGreatest {key : Int → Option κ} {L R left right : Int} {a : κ}
    (ascending : Ascending key L R) (enclosed : Enclosed key L R a left right) :
    IsGreatest (keysUpTo key L R a) left := by
  have left_in := enclosed.left_in
  have ordered := enclosed.ordered
  have right_in := enclosed.right_in
  refine ⟨⟨left_in, by omega, enclosed.found⟩, ?_⟩
  rintro i ⟨low, high, v, here, small⟩
  by_contra beyond
  exact not_lt_of_ge small (enclosed.above ascending (by omega) high here)

/-- Every key above `a` comes after `right`. -/
theorem Enclosed.right_lt {key : Int → Option κ} {L R left right i : Int} {a : κ}
    (ascending : Ascending key L R) (enclosed : Enclosed key L R a left right)
    (above : i ∈ keysAbove key L R a) : right < i := by
  obtain ⟨low, high, v, here, large⟩ := above
  obtain ⟨w, found, small⟩ := enclosed.found
  have ordered := enclosed.ordered
  have right_in := enclosed.right_in
  by_contra inside
  rcases Int.lt_trichotomy i left with before | rfl | later
  · have := ascending i left v w low before (by omega) here found
    exact not_lt_of_ge (le_trans this small) large
  · rw [found] at here
    cases here
    exact not_lt_of_ge small large
  · rw [enclosed.none i later (by omega)] at here
    cases here

theorem Enclosed.isLeast {key : Int → Option κ} {L R left right : Int} {a : κ}
    (ascending : Ascending key L R) (enclosed : Enclosed key L R a left right) :
    IsLeast (keysAbove key L R a) (right + 1) ∨ keysAbove key L R a = ∅ ∧ right = R := by
  have left_in := enclosed.left_in
  have ordered := enclosed.ordered
  have right_in := enclosed.right_in
  by_cases last : right = R
  · right
    refine ⟨Set.eq_empty_of_forall_notMem fun i above => ?_, last⟩
    have beyond := enclosed.right_lt ascending above
    have inside := above.2.1
    omega
  · left
    obtain ⟨v, next, large⟩ := enclosed.stop.resolve_left last
    exact ⟨⟨by omega, by omega, v, next, large⟩, fun i above => enclosed.right_lt ascending above⟩

/-! ### Two neighbours

A bisection that slides from the middle of its range to the nearest key on the left, and goes
on from there, meets two neighbouring keys in an order that depends on where the keys are and
on nothing else.
-/

section Neighbours

variable {β : Type}

/-- Bisecting `[l, r]` for the key at `e` meets the key at `e'`, the next one, before it. -/
inductive LaterFirst (key : Int → Option β) (e e' : Int) : Int → Int → Prop where
  | met {l r : Int} : e' ≤ (l + r) / 2 → (∀ i, e' < i → i ≤ (l + r) / 2 → key i = none) →
      LaterFirst key e e' l r
  | right {l r : Int} : (l + r) / 2 < e → LaterFirst key e e' ((l + r) / 2 + 1) r →
      LaterFirst key e e' l r
  | left {l r m : Int} : e' < m → m ≤ (l + r) / 2 → key m ≠ none →
      (∀ i, m < i → i ≤ (l + r) / 2 → key i = none) → LaterFirst key e e' l (m - 1) →
      LaterFirst key e e' l r

namespace LaterFirst

variable {key : Int → Option β} {e e' l r m : Int}

/-- The middle lies before both keys. -/
theorem right_iff (ordered : e < e') (before : (l + r) / 2 < e) :
    LaterFirst key e e' l r ↔ LaterFirst key e e' ((l + r) / 2 + 1) r := by
  constructor
  · intro later
    cases later with
    | met reached => omega
    | right _ later => exact later
    | left after inside => omega
  · exact .right before

/-- The key at `m`, after both, is the nearest one to the middle. -/
theorem left_iff (ordered : e < e') (after : e' < m) (inside : m ≤ (l + r) / 2)
    (here : key m ≠ none) (none : ∀ i, m < i → i ≤ (l + r) / 2 → key i = none) :
    LaterFirst key e e' l r ↔ LaterFirst key e e' l (m - 1) := by
  constructor
  · intro later
    cases later with
    | met _ clear => exact absurd (clear m after inside) here
    | right before => omega
    | @left _ _ m' after' inside' here' none' later =>
      -- both are the last key up to the middle
      obtain rfl : m' = m := by
        rcases Int.lt_trichotomy m' m with less | same | more
        · exact absurd (none' m less inside) here
        · exact same
        · exact absurd (none m' more inside') here'
      exact later
  · exact .left after inside here none

/-- The key at `e` is the nearest one to the middle. -/
theorem not_of_met (ordered : e < e') (there : key e' ≠ none)
    (inside : e ≤ (l + r) / 2) (none : ∀ i, e < i → i ≤ (l + r) / 2 → key i = none) :
    ¬LaterFirst key e e' l r := by
  intro later
  cases later with
  | met reached => exact there (none e' ordered reached)
  | right before => omega
  | left after inside' here' => exact here' (none _ (by omega) inside')

end LaterFirst

end Neighbours

end Library
