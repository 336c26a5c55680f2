import Jos.Kern.StabBounds

/-!
# When stab_binsearch reports a miss

A search that has seen any stab of the type never returns an empty region, so a miss is
reported only for a range without any. The result falls before the range only from the last
address, past which the search looks for 0.
-/
namespace Jos

open Library

/-- Some stab of the type in `[L, R]` lies at or below the address. -/
def AtOrBelow (stabs : List Stab) (type L R : Int) (addr : UInt32) : Prop :=
  ∃ i b, L ≤ i ∧ i ≤ R ∧ stabKey stabs type i = some b ∧ b ≤ addr.toNat

/-- The result as the comment above `stab_binsearch` has it: an empty region exactly for an
address that no stab contains, with its left end in the range. -/
structure ReportsMiss (stabs : List Stab) (type L R : Int) (addr : UInt32) (left right : Int) :
    Prop where
  miss : right < left ↔ ¬AtOrBelow stabs type L R addr
  inside : L ≤ left ∧ left ≤ R

/-- The last address, hit first by a stab at the left end of the range: none of the type comes
after it up to the middle. -/
structure WrapsAtEdge (stabs : List Stab) (type L R : Int) (addr : UInt32) : Prop where
  last : addr.toNat = 4294967295
  edge : stabKey stabs type L = some addr.toNat
  first : ∀ i, L < i → i ≤ (L + R) / 2 → stabKey stabs type i = none

variable {stabs : List Stab} {type L R : Int} {addr : UInt32}

/-- A stab at the left end is at or below whatever some stab of the range is. -/
theorem edge_le (ascending : Ascending (stabKey stabs type) L R)
    (below : AtOrBelow stabs type L R addr) {b : Nat} (edge : stabKey stabs type L = some b) :
    b ≤ addr.toNat := by
  obtain ⟨i, c, low, high, key, small⟩ := below
  by_cases same : i = L
  · rw [same, edge] at key
    cases key
    exact small
  · have ordered := ascending L i b c (Int.le_refl L) (by omega) high edge key
    omega

/-! ### The result stays in the range -/

/-- The right end of the search stays in the range. While the left end has not moved, the
address is the one given, or the one after it. -/
structure Floored (stabs : List Stab) (type L R : Int) (addr : UInt32) (v : SearchVars) :
    Prop where
  ranged : Ranged stabs type L R v
  floor : L ≤ v.r
  atEdge : v.l = L →
    (v.addr = addr ∧ (addr.toNat = 4294967295 → v.r = R)) ∨
      (v.addr = addr + 1 ∧ stabKey stabs type L = some addr.toNat ∧
        (addr.toNat = 4294967295 → ∀ i, L < i → i ≤ (L + R) / 2 → stabKey stabs type i = none))

theorem Floored.kept (low : 0 ≤ L) (high : R < stabs.length)
    (ascending : Ascending (stabKey stabs type) L R) (below : AtOrBelow stabs type L R addr)
    (noWrap : ¬WrapsAtEdge stabs type L R addr) (v v' : SearchVars)
    (floored : Floored stabs type L R addr v) (open_ : v.l ≤ v.r)
    (turn : v.probe stabs type = .ok v') : Floored stabs type L R addr v' := by
  have ranged' := floored.ranged.kept low high v v' open_ turn
  obtain ⟨ranged, floor, atEdge⟩ := floored
  have left_in := ranged.left_in
  have right_in := ranged.right_in
  obtain ⟨t, middle, above, under, ⟨rfl, _⟩ | ⟨m, b, past, inside, here, none, outcome⟩⟩ :=
    turn_cases turn (by omega) open_ (by omega)
  · exact ⟨ranged', floor, fun edge => by dsimp only at edge; omega⟩
  rcases outcome with ⟨_, rfl⟩ | ⟨larger, rfl⟩ | ⟨exact_, rfl⟩
  · exact ⟨ranged', floor, fun edge => by dsimp only at edge; omega⟩
  · have bound := stabKey_lt here
    refine ⟨ranged', ?_, fun edge => (atEdge edge).imp (fun ⟨same, whole⟩ => ⟨same, ?_⟩) id⟩
    · by_contra fallen
      obtain rfl : m = L := by dsimp only at fallen; omega
      have small := edge_le ascending below here
      rcases atEdge (by omega) with ⟨same, _⟩ | ⟨next, key, first⟩
      · rw [same] at larger
        omega
      · -- the address after the given one is below it only if it is the last
        rw [here, Option.some.injEq] at key
        have wrapped : addr.toNat = 4294967295 := by
          by_contra inner
          rw [next, addr_succ, if_neg inner] at larger
          omega
        exact noWrap ⟨wrapped, by rw [here, key], first wrapped⟩
    · intro last
      rw [same] at larger
      omega
  · refine ⟨ranged', floor, fun edge => .inr ?_⟩
    obtain rfl : m = L := edge
    rcases atEdge (by omega) with ⟨same, whole⟩ | ⟨next, key, _⟩
    · rw [same] at exact_
      refine ⟨by rw [same], by rw [here, exact_], fun last i after before => ?_⟩
      have start : v.l = m := by omega
      rw [start, whole last] at middle
      exact none i after (by omega)
    · -- one stab is not hit at two addresses
      rw [here, Option.some.injEq, exact_, next] at key
      exact absurd key (addr_succ_ne addr)

theorem Floored.start (range : L ≤ R) : Floored stabs type L R addr
    { l := L, r := R, regionLeft := L, regionRight := R, anyMatches := false, addr } where
  ranged := Ranged.start (by omega)
  floor := range
  atEdge := fun _ => .inl ⟨rfl, fun _ => rfl⟩

theorem stabBinsearch_floor (low : 0 ≤ L) (range : L ≤ R) (high : R < stabs.length)
    (ascending : Ascending (stabKey stabs type) L R) (below : AtOrBelow stabs type L R addr)
    (noWrap : ¬WrapsAtEdge stabs type L R addr) :
    ∃ left right, stabBinsearch stabs L R type addr = .ok (left, right) ∧ L ≤ left := by
  obtain ⟨v, searched, final, _⟩ := search_total stabs type (Floored stabs type L R addr)
    (fun v here => ⟨by have := here.ranged.left_in; omega,
      by have := here.ranged.right_in; omega⟩)
    (Floored.kept low high ascending below noWrap) _ (Floored.start range)
  have floor := final.floor
  cases matched : v.anyMatches with
  | false =>
    have first := (final.ranged.fresh matched).2.1
    exact ⟨v.regionLeft, v.regionLeft - 1, by simp [stabBinsearch, searched, matched], by omega⟩
  | true =>
    obtain ⟨left, returned, outcome⟩ := final.ranged.result low high matched searched
    have regionLow := (final.ranged.region matched).1
    refine ⟨left, v.r, returned, ?_⟩
    rcases outcome with ⟨_, rfl⟩ | ⟨above, _⟩
    · exact floor
    · omega

/-! ### The result falls before the range -/

/-- After the hit at the left end every stab is above 0, and the right end comes down to it. -/
structure Fallen (stabs : List Stab) (type L R : Int) (v : SearchVars) : Prop where
  ranged : Ranged stabs type L R v
  left : v.l = L
  region : v.regionLeft = L
  any : v.anyMatches = true → v.addr.toNat = 0
  whole : v.anyMatches = false → v.addr.toNat = 4294967295 ∧ v.r = R

theorem Fallen.kept (low : 0 ≤ L) (high : R < stabs.length)
    (ascending : Ascending (stabKey stabs type) L R) (wraps : WrapsAtEdge stabs type L R addr)
    (v v' : SearchVars) (fallen : Fallen stabs type L R v) (open_ : v.l ≤ v.r)
    (turn : v.probe stabs type = .ok v') : Fallen stabs type L R v' := by
  have ranged' := fallen.ranged.kept low high v v' open_ turn
  obtain ⟨ranged, left, region, any, whole⟩ := fallen
  obtain ⟨last, edge, first⟩ := wraps
  have right_in := ranged.right_in
  obtain ⟨t, middle, above, under, ⟨_, none⟩ | ⟨m, b, past, inside, here, none, outcome⟩⟩ :=
    turn_cases turn (by omega) open_ (by omega)
  · rw [none L (by omega) (by omega)] at edge
    cases edge
  -- every stab of the type in the range lies at the last address
  have top : b = 4294967295 := by
    have bound := stabKey_lt here
    by_cases same : m = L
    · rw [same, edge, Option.some.injEq] at here
      omega
    · have ordered := ascending L m _ b (Int.le_refl L) (by omega) (by omega) edge here
      omega
  cases matched : v.anyMatches with
  | true =>
    have zero := any matched
    rcases outcome with ⟨smaller, _⟩ | ⟨_, rfl⟩ | ⟨exact_, _⟩
    · omega
    · exact ⟨ranged', left, region, fun _ => zero, nofun⟩
    · omega
  | false =>
    obtain ⟨target, right⟩ := whole matched
    -- the first probe finds the left end, since nothing of the type comes after it
    have atEdge : m = L := by
      by_contra other
      rw [first m (by omega) (by rw [left, right] at middle; omega)] at here
      cases here
    rcases outcome with ⟨smaller, _⟩ | ⟨larger, _⟩ | ⟨_, rfl⟩
    · omega
    · omega
    · refine ⟨ranged', atEdge, atEdge, fun _ => ?_, nofun⟩
      dsimp only
      rw [addr_succ, if_pos target]

theorem stabBinsearch_fallen (low : 0 ≤ L) (range : L ≤ R) (high : R < stabs.length)
    (ascending : Ascending (stabKey stabs type) L R) (wraps : WrapsAtEdge stabs type L R addr) :
    stabBinsearch stabs L R type addr = .ok (L - 1, L - 1) := by
  have start : Fallen stabs type L R
      { l := L, r := R, regionLeft := L, regionRight := R, anyMatches := false, addr } :=
    ⟨Ranged.start (by omega), rfl, rfl, nofun, fun _ => ⟨wraps.last, rfl⟩⟩
  obtain ⟨v, searched, ⟨ranged, left, region, _, whole⟩, empty⟩ := search_total stabs type
    (Fallen stabs type L R)
    (fun v here => ⟨by have := here.left; omega, by have := here.ranged.right_in; omega⟩)
    (Fallen.kept low high ascending wraps) _ start
  have meet := ranged.meet
  have right : v.r = L - 1 := by omega
  cases matched : v.anyMatches with
  | false =>
    have := (whole matched).2
    omega
  | true =>
    obtain ⟨result, returned, outcome⟩ := ranged.result low high matched searched
    rcases outcome with ⟨_, rfl⟩ | ⟨above, below, _⟩
    · rw [returned, right]
    · omega

/-- On an ascending range the result is as documented exactly when the range has no stab of the
type, or has one at or below the address and the search does not fall off its left end. -/
theorem stabBinsearch_reportsMiss_iff (low : 0 ≤ L) (range : L ≤ R) (high : R < stabs.length)
    (ascending : Ascending (stabKey stabs type) L R) (addr : UInt32) :
    ∃ left right, stabBinsearch stabs L R type addr = .ok (left, right) ∧
      (ReportsMiss stabs type L R addr left right ↔
        (∀ i, L ≤ i → i ≤ R → stabKey stabs type i = none) ∨
          AtOrBelow stabs type L R addr ∧ ¬WrapsAtEdge stabs type L R addr) := by
  obtain ⟨left, right, returned, missed | matched⟩ :=
    stabBinsearch_total stabs type addr low (by omega) high
  · obtain ⟨rfl, rfl, none⟩ := missed
    refine ⟨left, left - 1, returned, ?_⟩
    have nothing : ¬AtOrBelow stabs type left R addr := by
      rintro ⟨i, b, low, high, key, _⟩
      rw [none i low high] at key
      cases key
    exact ⟨fun _ => .inl none,
      fun _ => ⟨⟨fun _ => nothing, fun _ => by omega⟩, by omega, range⟩⟩
  · refine ⟨left, right, returned, ?_⟩
    have ordered := matched.ordered
    have right_in := matched.right_in
    obtain ⟨i, low', high', typed⟩ := matched.present
    constructor
    · rintro ⟨miss, inside⟩
      right
      constructor
      · by_contra nothing
        have := miss.mpr nothing
        omega
      · intro wraps
        rw [stabBinsearch_fallen low range high ascending wraps] at returned
        cases returned
        omega
    · rintro (none | ⟨below, noWrap⟩)
      · exact absurd (none i low' high') typed
      · obtain ⟨left', right', same, floor⟩ :=
          stabBinsearch_floor low range high ascending below noWrap
        rw [returned] at same
        cases same
        exact ⟨⟨fun crossed => by omega, fun nothing => absurd below nothing⟩, floor, by omega⟩

/-- A file with two functions and their lines. -/
def twoFunctions : List Stab :=
  [⟨1, 0x64, 0, 0xf0100000⟩, ⟨8, 0x24, 0, 0xf0100010⟩, ⟨0, 0x44, 7, 0⟩, ⟨0, 0x44, 8, 9⟩,
    ⟨16, 0x24, 0, 0xf0100030⟩, ⟨0, 0x44, 11, 0⟩]

theorem twoFunctions_ascending : Ascending (stabKey twoFunctions N_FUN) 0 5 := by
  have typed : ∀ i v, 0 ≤ i → i ≤ 5 → stabKey twoFunctions N_FUN i = some v → i = 1 ∨ i = 4 := by
    intro i v low high key
    obtain rfl | rfl | rfl | rfl | rfl | rfl :
        i = 0 ∨ i = 1 ∨ i = 2 ∨ i = 3 ∨ i = 4 ∨ i = 5 := by omega
    all_goals first | omega | cases key
  intro i j v w low before high keyI keyJ
  have atI := typed i v low (by omega) keyI
  have atJ := typed j w (by omega) high keyJ
  obtain ⟨rfl, rfl⟩ : i = 1 ∧ j = 4 := by omega
  cases keyI
  cases keyJ
  decide

theorem stabBinsearch_reportsMiss_iff_twoFunctions :
    ∃ left right, stabBinsearch twoFunctions 0 5 N_FUN 0xf0100037 = .ok (left, right) ∧
      (ReportsMiss twoFunctions N_FUN 0 5 0xf0100037 left right ↔
        (∀ i, 0 ≤ i → i ≤ 5 → stabKey twoFunctions N_FUN i = none) ∨
          AtOrBelow twoFunctions N_FUN 0 5 0xf0100037 ∧
            ¬WrapsAtEdge twoFunctions N_FUN 0 5 0xf0100037) :=
  stabBinsearch_reportsMiss_iff (by decide) (by decide) (by decide) twoFunctions_ascending _

/-- One function, that the address lies before. -/
def oneFunction : List Stab := [⟨0, 0x24, 0, 0xf0100010⟩]

/-- The one function begins after the address, and the region is not empty. -/
theorem stabBinsearch_reportsMiss_above :
    stabBinsearch oneFunction 0 0 N_FUN 0xf0100000 = .ok (-1, -1) ∧
      ¬ReportsMiss oneFunction N_FUN 0 0 0xf0100000 (-1) (-1) := by
  refine ⟨by decide, ?_⟩
  rintro ⟨_, inside, _⟩
  exact absurd inside (by decide)

end Jos
