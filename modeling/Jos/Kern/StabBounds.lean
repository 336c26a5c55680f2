import Jos.Kern.StabSearch

/-!
# stab_binsearch on any table

What the search keeps whatever the table holds: every index that it reads lies in the range
that it was given, and it can leave that range by one index only, to the left, and only when
the range begins with a stab of the type.
-/
namespace Jos

open Library

/-- What the search loop keeps in `[L, R]` on any table. -/
structure Ranged (stabs : List Stab) (type L R : Int) (v : SearchVars) : Prop where
  left_in : L ≤ v.l
  meet : v.l ≤ v.r + 1
  right_in : v.r ≤ R
  right : v.regionRight = v.r
  fresh : v.anyMatches = false →
    v.r = R ∧ v.regionLeft = L ∧ ∀ i, L ≤ i → i < v.l → stabKey stabs type i = none
  region : v.anyMatches = true → L ≤ v.regionLeft ∧ v.regionLeft ≤ R
  present : v.anyMatches = true → ∃ i, L ≤ i ∧ i ≤ R ∧ stabKey stabs type i ≠ none
  floor : v.anyMatches = true → v.r = L - 1 → stabKey stabs type L ≠ none

/-- There is no stab of the type in `[L, R]`, and the result says so. -/
structure Missed (stabs : List Stab) (type L R left right : Int) : Prop where
  left : left = L
  right : right = L - 1
  none : ∀ i, L ≤ i → i ≤ R → stabKey stabs type i = none

/-- There is a stab of the type in `[L, R]`. Only a stab of the type at `L` lets the result
begin before it. -/
structure Matched (stabs : List Stab) (type L R left right : Int) : Prop where
  left_in : L - 1 ≤ left
  ordered : left ≤ right
  right_in : right ≤ R
  edge : left = L - 1 → stabKey stabs type L ≠ none
  present : ∃ i, L ≤ i ∧ i ≤ R ∧ stabKey stabs type i ≠ none

variable {stabs : List Stab} {type L R : Int}

theorem Ranged.start {addr : UInt32} (range : L ≤ R + 1) :
    Ranged stabs type L R
      { l := L, r := R, regionLeft := L, regionRight := R, anyMatches := false, addr } where
  left_in := Int.le_refl L
  meet := range
  right_in := Int.le_refl R
  right := rfl
  fresh := fun _ => ⟨rfl, rfl, fun _ low high => absurd high (Int.not_lt.mpr low)⟩
  region := nofun
  present := nofun
  floor := nofun

theorem Ranged.kept (low : 0 ≤ L) (high : R < stabs.length) (v v' : SearchVars)
    (ranged : Ranged stabs type L R v) (open_ : v.l ≤ v.r)
    (turn : v.probe stabs type = .ok v') : Ranged stabs type L R v' := by
  obtain ⟨left_in, meet, right_in, right, fresh, region, present, floor⟩ := ranged
  obtain ⟨t, _, above, below, ⟨rfl, none⟩ | ⟨m, b, past, under, here, none, outcome⟩⟩ :=
    turn_cases turn (by omega) open_ (by omega)
  · refine ⟨by dsimp only; omega, by dsimp only; omega, right_in, right, ?_, region, present, floor⟩
    intro unmatched
    obtain ⟨last, first, clear⟩ := fresh unmatched
    refine ⟨last, first, fun i low high => ?_⟩
    by_cases old : i < v.l
    · exact clear i low old
    · exact none i (by omega) (by dsimp only at high; omega)
  have typed : ∃ i, L ≤ i ∧ i ≤ R ∧ stabKey stabs type i ≠ .none :=
    ⟨m, by omega, by omega, by simp [here]⟩
  rcases outcome with ⟨_, rfl⟩ | ⟨_, rfl⟩ | ⟨_, rfl⟩
  · exact ⟨by dsimp only; omega, by dsimp only; omega, right_in, right, nofun,
      fun _ => ⟨by dsimp only; omega, by dsimp only; omega⟩, fun _ => typed,
      fun _ edge => by dsimp only at edge; omega⟩
  · refine ⟨left_in, by dsimp only; omega, by dsimp only; omega, rfl, nofun, ?_,
      fun _ => typed, ?_⟩
    · intro _
      dsimp only
      cases matched : v.anyMatches with
      | true => exact region matched
      | false =>
        obtain ⟨_, first, _⟩ := fresh matched
        omega
    · -- the right end falls below `L` only from a stab of the type at `L`
      intro _ edge
      obtain rfl : m = L := by dsimp only at edge; omega
      simp [here]
  · exact ⟨by dsimp only; omega, by dsimp only; omega, right_in, right, nofun,
      fun _ => ⟨by dsimp only; omega, by dsimp only; omega⟩, fun _ => typed,
      fun _ edge => by dsimp only at edge; omega⟩

/-- The loop after the search finds the last stab of the type up to `right`, but stops at
`left`; it does nothing when `right` is already below. -/
theorem slideLeft_fixUp (stabs : List Stab) (type : Int) (left right : Int) (low : 0 ≤ left)
    (high : right < stabs.length) :
    ∃ left', slideLeft stabs type (left + 1) right = .ok left' ∧
      ((right < left ∧ left' = right) ∨
        (left ≤ left' ∧ left' ≤ right ∧
          (∀ i, left' < i → i ≤ right → stabKey stabs type i = none) ∧
          (left' = left ∨ stabKey stabs type left' ≠ none))) := by
  by_cases crossed : right < left
  · refine ⟨right, ?_, .inl ⟨crossed, rfl⟩⟩
    have stop : ¬right ≥ left + 1 := by omega
    simp [slideLeft, whileLoop, stop]
  · obtain ⟨left', slid, above, below, none, stop⟩ := slideLeft_total stabs type
      (l := left + 1) (m := right) (by omega) (by omega) high
    refine ⟨left', slid, .inr ⟨by omega, below, none, ?_⟩⟩
    rcases stop with edge | ⟨s, read, same⟩
    · left
      omega
    · right
      rw [stabKey_eq_some_iff.mpr ⟨s, read, same, rfl⟩]
      simp

/-- The result that `stab_binsearch` makes of the variables that its loop has left. -/
theorem Ranged.result {addr : UInt32} {v : SearchVars} (low : 0 ≤ L) (high : R < stabs.length)
    (ranged : Ranged stabs type L R v) (matched : v.anyMatches = true)
    (searched : SearchVars.search stabs type
      { l := L, r := R, regionLeft := L, regionRight := R, anyMatches := false, addr } = .ok v) :
    ∃ left, stabBinsearch stabs L R type addr = .ok (left, v.r) ∧
      ((v.r < v.regionLeft ∧ left = v.r) ∨
        (v.regionLeft ≤ left ∧ left ≤ v.r ∧
          (∀ i, left < i → i ≤ v.r → stabKey stabs type i = none) ∧
          (left = v.regionLeft ∨ stabKey stabs type left ≠ none))) := by
  obtain ⟨regionLow, regionHigh⟩ := ranged.region matched
  have right_in := ranged.right_in
  obtain ⟨left, slid, outcome⟩ := slideLeft_fixUp stabs type v.regionLeft v.r (by omega) (by omega)
  exact ⟨left, by simp [stabBinsearch, searched, matched, ranged.right, slid], outcome⟩

/-- On any table `stab_binsearch` ends, without a read outside the range. -/
theorem stabBinsearch_total (stabs : List Stab) (type : Int) {L R : Int} (addr : UInt32)
    (low : 0 ≤ L) (range : L ≤ R + 1) (high : R < stabs.length) :
    ∃ left right, stabBinsearch stabs L R type addr = .ok (left, right) ∧
      (Missed stabs type L R left right ∨ Matched stabs type L R left right) := by
  obtain ⟨v, searched, final, empty⟩ := search_total stabs type (Ranged stabs type L R)
    (fun v here => ⟨by have := here.left_in; omega, by have := here.right_in; omega⟩)
    (Ranged.kept low high) _ (@Ranged.start stabs type L R addr range)
  cases matched : v.anyMatches with
  | false =>
    obtain ⟨last, first, clear⟩ := final.fresh matched
    refine ⟨v.regionLeft, v.regionLeft - 1, by simp [stabBinsearch, searched, matched], .inl ?_⟩
    exact ⟨first, by omega, fun i low high => clear i low (by omega)⟩
  | true =>
    obtain ⟨left, returned, outcome⟩ := final.result low high matched searched
    have regionLow := (final.region matched).1
    have meet := final.meet
    have left_in := final.left_in
    refine ⟨left, v.r, returned, .inr ?_⟩
    rcases outcome with ⟨crossed, rfl⟩ | ⟨above, below, _, _⟩
    · exact ⟨by omega, Int.le_refl _, final.right_in, final.floor matched, final.present matched⟩
    · exact ⟨by omega, below, final.right_in, fun edge => by omega, final.present matched⟩

end Jos
