import Jos.Kern.StabBounds
import Jos.Library.Bisection

/-!
# Where stab_binsearch ends

On a table in any order the search ends on a stab of the type in its range unless the bisection
meets only stabs above the address, or wraps around at the last address and then meets only
stabs above 0. It then ends at the beginning of the range, or on whatever stands before the
stab that it has hit last.
-/
namespace Jos

open Library

/-- Bisecting `[l, r]` for `a`, which grows by one at every hit, comes to a hit of the last
address at `m` and from there on meets only keys above 0. -/
inductive FallsBack (key : Int → Option Nat) : Int → Int → UInt32 → Int → Prop where
  | skip {l r m : Int} {a : UInt32} : l ≤ r → Skipped key l r →
      FallsBack key ((l + r) / 2 + 1) r a m → FallsBack key l r a m
  | less {l r m m' : Int} {a : UInt32} {b : Nat} : Nearest key l r m' b → b < a.toNat →
      FallsBack key ((l + r) / 2 + 1) r a m → FallsBack key l r a m
  | greater {l r m m' : Int} {a : UInt32} {b : Nat} : Nearest key l r m' b → a.toNat < b →
      FallsBack key l (m' - 1) a m → FallsBack key l r a m
  | hit {l r m m' : Int} {a : UInt32} {b : Nat} : Nearest key l r m' b → b = a.toNat →
      FallsBack key m' r (a + 1) m → FallsBack key l r a m
  | last {l r m : Int} {a : UInt32} {b : Nat} : Nearest key l r m b → b = a.toNat →
      a.toNat = 4294967295 → OnlyAbove key 0 m r → FallsBack key l r a m

/-- The search of `[L, R]` for `a` ends at `i`, not on a stab of the type that it has met. -/
inductive Unmet (key : Int → Option Nat) (L R : Int) (a : UInt32) : Int → Prop where
  | start : OnlyAbove key a.toNat L R → (L ≤ R → key L = none) → Unmet key L R a L
  | before : OnlyAbove key a.toNat L R → L ≤ R → key L ≠ none → Unmet key L R a (L - 1)
  | wrapped {m : Int} : FallsBack key L R a m → Unmet key L R a (m - 1)

/-- Bisecting `[l, r]` for `a`, which grows by one at every hit, closes with its right end at
`e`. -/
inductive ClosesAt (key : Int → Option Nat) : Int → Int → UInt32 → Int → Prop where
  | closed {l r : Int} {a : UInt32} : r < l → ClosesAt key l r a r
  | skip {l r e : Int} {a : UInt32} : l ≤ r → Skipped key l r →
      ClosesAt key ((l + r) / 2 + 1) r a e → ClosesAt key l r a e
  | less {l r m e : Int} {a : UInt32} {b : Nat} : Nearest key l r m b → b < a.toNat →
      ClosesAt key ((l + r) / 2 + 1) r a e → ClosesAt key l r a e
  | greater {l r m e : Int} {a : UInt32} {b : Nat} : Nearest key l r m b → a.toNat < b →
      ClosesAt key l (m - 1) a e → ClosesAt key l r a e
  | hit {l r m e : Int} {a : UInt32} {b : Nat} : Nearest key l r m b → b = a.toNat →
      ClosesAt key m r (a + 1) e → ClosesAt key l r a e

/-- The search of `[L, R]` for `a` ends with the region from `k` to `e`, where the bisection
closes: `k` is the last stab of the type up to there, or the beginning of the range. -/
structure EndsOn (key : Int → Option Nat) (L R : Int) (a : UInt32) (k e : Int) : Prop where
  present : ∃ i, L ≤ i ∧ i ≤ R ∧ key i ≠ none
  stays : ∀ m, ¬FallsBack key L R a m
  closes : ClosesAt key L R a e
  low : L ≤ k
  none : ∀ i, k < i → i ≤ e → key i = none
  stop : k = L ∨ key k ≠ .none

namespace FallsBack

variable {key : Int → Option Nat} {l r m m' : Int} {a : UInt32} {b : Nat}

theorem isOpen (falls : FallsBack key l r a m) : l ≤ r := by
  cases falls with
  | skip open_ => exact open_
  | less nearest | greater nearest | hit nearest | last nearest =>
    have left := nearest.left
    have inside := nearest.inside
    omega

theorem skip_inv (falls : FallsBack key l r a m) (skipped : Skipped key l r) :
    FallsBack key ((l + r) / 2 + 1) r a m := by
  cases falls with
  | skip _ _ rest => exact rest
  | less nearest | greater nearest | hit nearest | last nearest =>
    exact absurd skipped nearest.not_skipped

theorem below_inv (falls : FallsBack key l r a m) (nearest : Nearest key l r m' b)
    (less : b < a.toNat) : FallsBack key ((l + r) / 2 + 1) r a m := by
  cases falls with
  | skip _ skipped _ => exact absurd skipped nearest.not_skipped
  | less _ _ rest => exact rest
  | greater other | hit other | last other =>
    obtain ⟨rfl, rfl⟩ := nearest.unique other
    omega

theorem above_inv (falls : FallsBack key l r a m) (nearest : Nearest key l r m' b)
    (greater : a.toNat < b) : FallsBack key l (m' - 1) a m := by
  cases falls with
  | skip _ skipped _ => exact absurd skipped nearest.not_skipped
  | greater other _ rest =>
    obtain ⟨rfl, rfl⟩ := nearest.unique other
    exact rest
  | less other | hit other | last other =>
    obtain ⟨rfl, rfl⟩ := nearest.unique other
    omega

theorem hit_inv (falls : FallsBack key l r a m) (nearest : Nearest key l r m' b)
    (exact_ : b = a.toNat) : FallsBack key m' r (a + 1) m ∨
      (m = m' ∧ a.toNat = 4294967295 ∧ OnlyAbove key 0 m' r) := by
  cases falls with
  | skip _ skipped _ => exact absurd skipped nearest.not_skipped
  | less other | greater other =>
    obtain ⟨rfl, rfl⟩ := nearest.unique other
    omega
  | hit other _ rest =>
    obtain ⟨rfl, rfl⟩ := nearest.unique other
    exact .inl rest
  | last other _ top only =>
    obtain ⟨rfl, rfl⟩ := nearest.unique other
    exact .inr ⟨rfl, top, only⟩

theorem here (falls : FallsBack key l r a m) : key m = some 4294967295 := by
  induction falls with
  | skip _ _ _ ih | less _ _ _ ih | greater _ _ _ ih | hit _ _ _ ih => exact ih
  | last nearest exact_ top => rw [nearest.here, exact_, top]

end FallsBack

theorem ClosesAt.unique {key : Int → Option Nat} {l r e e' : Int} {a : UInt32}
    (closes : ClosesAt key l r a e) (other : ClosesAt key l r a e') : e = e' := by
  induction closes with
  | closed empty =>
    cases other with
    | closed _ => rfl
    | skip open_ => omega
    | less nearest | greater nearest | hit nearest =>
      have left := nearest.left
      have inside := nearest.inside
      omega
  | skip open_ skipped _ ih =>
    cases other with
    | closed empty => omega
    | skip _ _ rest => exact ih rest
    | less nearest | greater nearest | hit nearest => exact absurd skipped nearest.not_skipped
  | less nearest small _ ih =>
    have left := nearest.left
    have inside := nearest.inside
    cases other with
    | closed empty => omega
    | skip _ skipped _ => exact absurd skipped nearest.not_skipped
    | less _ _ rest => exact ih rest
    | greater nearest' | hit nearest' =>
      obtain ⟨rfl, rfl⟩ := nearest.unique nearest'
      omega
  | greater nearest large _ ih =>
    have left := nearest.left
    have inside := nearest.inside
    cases other with
    | closed empty => omega
    | skip _ skipped _ => exact absurd skipped nearest.not_skipped
    | greater nearest' _ rest =>
      obtain ⟨rfl, rfl⟩ := nearest.unique nearest'
      exact ih rest
    | less nearest' | hit nearest' =>
      obtain ⟨rfl, rfl⟩ := nearest.unique nearest'
      omega
  | hit nearest exact_ _ ih =>
    have left := nearest.left
    have inside := nearest.inside
    cases other with
    | closed empty => omega
    | skip _ skipped _ => exact absurd skipped nearest.not_skipped
    | hit nearest' _ rest =>
      obtain ⟨rfl, rfl⟩ := nearest.unique nearest'
      exact ih rest
    | less nearest' | greater nearest' =>
      obtain ⟨rfl, rfl⟩ := nearest.unique nearest'
      omega

variable {stabs : List Stab} {type L R : Int} {addr : UInt32}

/-- A turn of the search is a step of the bisection. -/
theorem turn_bisects {v v' : SearchVars} (turn : v.probe stabs type = .ok v') (low : 0 ≤ v.l)
    (open_ : v.l ≤ v.r) (high : v.r < stabs.length) :
    (Skipped (stabKey stabs type) v.l v.r ∧ v' = { v with l := (v.l + v.r) / 2 + 1 }) ∨
      ∃ m b, Nearest (stabKey stabs type) v.l v.r m b ∧
        ((b < v.addr.toNat ∧
            v' = { v with anyMatches := true, regionLeft := m, l := (v.l + v.r) / 2 + 1 }) ∨
          (v.addr.toNat < b ∧
            v' = { v with anyMatches := true, regionRight := m - 1, r := m - 1 }) ∨
          (b = v.addr.toNat ∧
            v' = { v with anyMatches := true, regionLeft := m, l := m, addr := v.addr + 1 })) := by
  obtain ⟨t, rfl, _, _, ⟨rfl, none⟩ | ⟨m, b, past, inside, here, none, outcome⟩⟩ :=
    turn_cases turn low open_ high
  · exact .inl ⟨none, rfl⟩
  · exact .inr ⟨m, b, ⟨past, inside, here, none⟩, outcome⟩

/-! ### Only stabs above the address -/

/-- What the search keeps while it meets only stabs above the address. -/
structure Descending (stabs : List Stab) (type L R : Int) (addr : UInt32) (v : SearchVars) :
    Prop where
  ranged : Ranged stabs type L R v
  only : OnlyAbove (stabKey stabs type) addr.toNat v.l v.r
  target : v.addr = addr
  region : v.regionLeft = L
  clear : ∀ i, L ≤ i → i < v.l → stabKey stabs type i = none
  stop : v.r = R ∨ stabKey stabs type (v.r + 1) ≠ none

theorem Descending.kept (low : 0 ≤ L) (high : R < stabs.length) (v v' : SearchVars)
    (descending : Descending stabs type L R addr v) (open_ : v.l ≤ v.r)
    (turn : v.probe stabs type = .ok v') : Descending stabs type L R addr v' := by
  have ranged' := descending.ranged.kept low high v v' open_ turn
  obtain ⟨ranged, only, target, region, clear, stop⟩ := descending
  have left_in := ranged.left_in
  have right_in := ranged.right_in
  rcases turn_bisects turn (by omega) open_ (by omega) with ⟨skipped, rfl⟩ | ⟨m, b, nearest, outcome⟩
  · refine ⟨ranged', only.skip_inv open_ skipped, target, region, ?_, stop⟩
    intro i above below
    by_cases old : i < v.l
    · exact clear i above old
    · exact skipped i (by omega) (by dsimp only at below; omega)
  · obtain ⟨large, rest⟩ := only.above_inv nearest
    rw [← target] at large
    rcases outcome with ⟨less, _⟩ | ⟨_, rfl⟩ | ⟨exact_, _⟩
    · omega
    · refine ⟨ranged', rest, target, region, clear, .inr ?_⟩
      simp [nearest.here]
    · omega

/-- The search that meets only stabs above the address stays at the left end of the range, and
comes down to the first stab of the type. -/
theorem stabBinsearch_onlyAbove (low : 0 ≤ L) (range : L ≤ R + 1) (high : R < stabs.length)
    (only : OnlyAbove (stabKey stabs type) addr.toNat L R) :
    ∃ left right, stabBinsearch stabs L R type addr = .ok (left, right) ∧
      (Missed stabs type L R left right ∨
        (left = if stabKey stabs type L = none then L else L - 1) ∧ left ≤ right ∧ right < R ∧
          (∀ i, L ≤ i → i ≤ right → stabKey stabs type i = none) ∧
          stabKey stabs type (right + 1) ≠ none) := by
  obtain ⟨v, searched, final, empty⟩ := search_total stabs type (Descending stabs type L R addr)
    (fun v here => ⟨by have := here.ranged.left_in; omega,
      by have := here.ranged.right_in; omega⟩)
    (Descending.kept low high) _ ⟨@Ranged.start stabs type L R addr range, only, rfl, rfl,
      fun i above below => by dsimp only at below; omega, .inl rfl⟩
  obtain ⟨ranged, _, _, region, clear, stop⟩ := final
  have meet := ranged.meet
  have left_in := ranged.left_in
  cases matched : v.anyMatches with
  | false =>
    obtain ⟨last, first, none⟩ := ranged.fresh matched
    refine ⟨v.regionLeft, v.regionLeft - 1, by simp [stabBinsearch, searched, matched], .inl ?_⟩
    exact ⟨first, by omega, fun i above below => none i above (by omega)⟩
  | true =>
    obtain ⟨left, returned, outcome⟩ := ranged.result low high matched searched
    obtain ⟨i, above, below, typed⟩ := ranged.present matched
    -- some stab of the type is there, so the right end has moved
    have lowered : v.r < R := by
      have right_in := ranged.right_in
      by_contra whole
      exact typed (clear i above (by omega))
    have next : stabKey stabs type (v.r + 1) ≠ none := by
      rcases stop with last | next
      · omega
      · exact next
    refine ⟨left, v.r, returned, .inr ⟨?_, ?_, lowered, fun i above below => clear i above (by omega),
      next⟩⟩
    · rcases outcome with ⟨crossed, rfl⟩ | ⟨under, inside, _, stopped⟩
      · have edge : v.r = L - 1 := by omega
        rw [if_neg (ranged.floor matched edge), edge]
      · rw [if_pos (clear L (Int.le_refl L) (by omega))]
        rcases stopped with same | here
        · omega
        · exact absurd (clear left (by omega) (by omega)) here
    · rcases outcome with ⟨_, rfl⟩ | ⟨_, inside, _⟩
      · exact Int.le_refl _
      · exact inside

/-! ### Past the last address -/

/-- The search on its way to the hit at `m` after which it wraps, and after it. -/
inductive Falling (stabs : List Stab) (type m : Int) (v : SearchVars) : Prop where
  | onTheWay : FallsBack (stabKey stabs type) v.l v.r v.addr m → Falling stabs type m v
  | wrapped : v.anyMatches = true → v.regionLeft = m → v.l = m → stabKey stabs type m ≠ none →
      OnlyAbove (stabKey stabs type) v.addr.toNat m v.r → Falling stabs type m v

theorem Falling.kept {m : Int} {v v' : SearchVars} (falling : Falling stabs type m v)
    (low : 0 ≤ v.l) (open_ : v.l ≤ v.r) (high : v.r < stabs.length)
    (turn : v.probe stabs type = .ok v') : Falling stabs type m v' := by
  cases falling with
  | onTheWay falls =>
    rcases turn_bisects turn low open_ high with ⟨skipped, rfl⟩ | ⟨m', b, nearest, outcome⟩
    · exact .onTheWay (falls.skip_inv skipped)
    · rcases outcome with ⟨less, rfl⟩ | ⟨greater, rfl⟩ | ⟨exact_, rfl⟩
      · exact .onTheWay (falls.below_inv nearest less)
      · exact .onTheWay (falls.above_inv nearest greater)
      · rcases falls.hit_inv nearest exact_ with later | ⟨rfl, top, only⟩
        · exact .onTheWay later
        · refine .wrapped rfl rfl rfl (by simp [nearest.here]) ?_
          dsimp only
          rwa [addr_succ, if_pos top]
  | wrapped matched region left here only =>
    -- the stab that was hit is still in reach, so nothing is skipped
    rw [← left] at here only
    rcases turn_bisects turn low open_ high with ⟨skipped, _⟩ | ⟨m', b, nearest, outcome⟩
    · exact absurd (skipped v.l (Int.le_refl _) (by omega)) here
    · obtain ⟨large, rest⟩ := only.above_inv nearest
      rcases outcome with ⟨less, _⟩ | ⟨_, rfl⟩ | ⟨exact_, _⟩
      · omega
      · exact .wrapped rfl region left (left ▸ here) (left ▸ rest)
      · omega

/-- A search that wraps around ends just before the stab at which it does. -/
theorem stabBinsearch_fallsBack (low : 0 ≤ L) (high : R < stabs.length) {m : Int}
    (falls : FallsBack (stabKey stabs type) L R addr m) :
    stabBinsearch stabs L R type addr = .ok (m - 1, m - 1) := by
  have range := falls.isOpen
  obtain ⟨v, searched, ⟨ranged, falling⟩, empty⟩ := search_total stabs type
    (fun v => Ranged stabs type L R v ∧ Falling stabs type m v)
    (fun v here => ⟨by have := here.1.left_in; omega, by have := here.1.right_in; omega⟩)
    (fun v v' ⟨ranged, falling⟩ open_ turn => ⟨ranged.kept low high v v' open_ turn,
      falling.kept (by have := ranged.left_in; omega) open_ (by have := ranged.right_in; omega) turn⟩)
    _ ⟨@Ranged.start stabs type L R addr (by omega), .onTheWay falls⟩
  have meet := ranged.meet
  cases falling with
  | onTheWay falls =>
    have := falls.isOpen
    omega
  | wrapped matched region left =>
    obtain ⟨result, returned, outcome⟩ := ranged.result low high matched searched
    have right : v.r = m - 1 := by omega
    rcases outcome with ⟨_, rfl⟩ | ⟨under, inside, _⟩
    · rw [returned, right]
    · omega

/-! ### A stab that is met -/

/-- The search while no end of `Unmet` is possible: either it must still meet a stab that is not
above the address, or the one it has met last is in reach for good. -/
inductive Meeting (stabs : List Stab) (type : Int) (v : SearchVars) : Prop where
  | searching : ¬OnlyAbove (stabKey stabs type) v.addr.toNat v.l v.r → Meeting stabs type v
  | met {b : Nat} : v.anyMatches = true → stabKey stabs type v.regionLeft = some b →
      v.regionLeft ≤ v.l → v.regionLeft ≤ v.r →
      (v.l = v.regionLeft → b < v.addr.toNat ∨
        ¬OnlyAbove (stabKey stabs type) v.addr.toNat v.l v.r) → Meeting stabs type v

theorem Meeting.kept {v v' : SearchVars} (meeting : Meeting stabs type v)
    (stays : ∀ m, ¬FallsBack (stabKey stabs type) v.l v.r v.addr m)
    (low : 0 ≤ v.l) (open_ : v.l ≤ v.r) (high : v.r < stabs.length)
    (turn : v.probe stabs type = .ok v') :
    Meeting stabs type v' ∧ ∀ m, ¬FallsBack (stabKey stabs type) v'.l v'.r v'.addr m := by
  rcases turn_bisects turn low open_ high with ⟨skipped, rfl⟩ | ⟨m, b, nearest, outcome⟩
  · refine ⟨?_, fun m falls => stays m (.skip open_ skipped falls)⟩
    cases meeting with
    | searching more => exact .searching fun only => more (.skip open_ skipped only)
    | met matched here before inside atLeft =>
      have beyond : v.regionLeft < v.l := by
        by_contra edge
        have clear := skipped v.regionLeft (by omega) (by omega)
        rw [here] at clear
        cases clear
      exact .met matched here (by dsimp only; omega) inside fun edge => by dsimp only at edge; omega
  have left := nearest.left
  have inside' := nearest.inside
  rcases outcome with ⟨less, rfl⟩ | ⟨greater, rfl⟩ | ⟨exact_, rfl⟩
  · refine ⟨?_, fun m falls => stays m (.less nearest less falls)⟩
    exact .met rfl nearest.here (by dsimp only; omega) (by dsimp only; omega)
      fun edge => by dsimp only at edge; omega
  · refine ⟨?_, fun m falls => stays m (.greater nearest greater falls)⟩
    cases meeting with
    | searching more => exact .searching fun only => more (.above nearest greater only)
    | @met c matched here before inside atLeft =>
      -- the stab that is above the address is not the one that was met
      have other : m ≠ v.regionLeft := by
        rintro rfl
        have edge : v.l = v.regionLeft := by omega
        rw [nearest.here, Option.some.injEq] at here
        rcases atLeft edge with smaller | more
        · omega
        · exact more (.above nearest greater (.closed (by omega)))
      refine .met rfl here before (by dsimp only; omega) fun edge => (atLeft edge).imp id ?_
      exact fun more only => more (.above nearest greater only)
  · refine ⟨?_, fun m falls => stays m (.hit nearest exact_ falls)⟩
    refine .met rfl nearest.here (Int.le_refl _) (by dsimp only; omega) fun _ => ?_
    dsimp only
    rw [addr_succ]
    split
    · next top => exact .inr fun only => stays m (.last nearest exact_ top only)
    · exact .inl (by omega)

/-- Otherwise the search ends on a stab of the type in the range. -/
theorem stabBinsearch_met (low : 0 ≤ L) (range : L ≤ R + 1) (high : R < stabs.length)
    (met : ∀ i, ¬Unmet (stabKey stabs type) L R addr i) :
    ∃ left right, stabBinsearch stabs L R type addr = .ok (left, right) ∧ L ≤ left ∧ left ≤ R ∧
      stabKey stabs type left ≠ none := by
  have more : ¬OnlyAbove (stabKey stabs type) addr.toNat L R := by
    intro only
    by_cases first : L ≤ R → stabKey stabs type L = none
    · exact met L (.start only first)
    · obtain ⟨open_, typed⟩ := Classical.not_imp.mp first
      exact met (L - 1) (.before only open_ typed)
  have stays : ∀ m, ¬FallsBack (stabKey stabs type) L R addr m := fun m falls =>
    met (m - 1) (.wrapped falls)
  obtain ⟨v, searched, ⟨ranged, meeting, _⟩, empty⟩ := search_total stabs type
    (fun v => Ranged stabs type L R v ∧ Meeting stabs type v ∧
      ∀ m, ¬FallsBack (stabKey stabs type) v.l v.r v.addr m)
    (fun v here => ⟨by have := here.1.left_in; omega, by have := here.1.right_in; omega⟩)
    (fun v v' ⟨ranged, meeting, stays⟩ open_ turn => ⟨ranged.kept low high v v' open_ turn,
      meeting.kept stays (by have := ranged.left_in; omega) open_
        (by have := ranged.right_in; omega) turn⟩)
    _ ⟨@Ranged.start stabs type L R addr range, .searching more, stays⟩
  cases meeting with
  | searching more => exact absurd (.closed empty) more
  | met matched here before inside _ =>
    obtain ⟨left, returned, outcome⟩ := ranged.result low high matched searched
    have regionLow := (ranged.region matched).1
    have right_in := ranged.right_in
    refine ⟨left, v.r, returned, ?_⟩
    rcases outcome with ⟨crossed, _⟩ | ⟨under, below, _, stopped⟩
    · omega
    · refine ⟨by omega, by omega, ?_⟩
      rcases stopped with rfl | typed
      · simp [here]
      · exact typed

/-- Where the search ends when it meets no stab that it could end on. -/
theorem stabBinsearch_unmet (low : 0 ≤ L) (range : L ≤ R + 1) (high : R < stabs.length) {i : Int}
    (unmet : Unmet (stabKey stabs type) L R addr i) :
    ∃ right, stabBinsearch stabs L R type addr = .ok (i, right) := by
  cases unmet with
  | start only first =>
    obtain ⟨left, right, returned, missed | ⟨rfl, inside, below, _⟩⟩ :=
      stabBinsearch_onlyAbove low range high only
    · exact ⟨right, by rw [returned, missed.left]⟩
    · split at inside
      · next none => exact ⟨right, by rw [returned, if_pos none]⟩
      · next typed => exact absurd (first (by omega)) typed
  | before only open_ typed =>
    obtain ⟨left, right, returned, missed | ⟨rfl, _⟩⟩ :=
      stabBinsearch_onlyAbove low range high only
    · exact absurd (missed.none L (Int.le_refl L) open_) typed
    · exact ⟨right, by rw [returned, if_neg typed]⟩
  | wrapped falls => exact ⟨_, stabBinsearch_fallsBack low high falls⟩

/-- A result that begins before the range is empty but for that index. -/
theorem stabBinsearch_before (low : 0 ≤ L) (range : L ≤ R + 1) (high : R < stabs.length)
    {right : Int} (returned : stabBinsearch stabs L R type addr = .ok (L - 1, right)) :
    right = L - 1 := by
  by_cases met : ∀ i, ¬Unmet (stabKey stabs type) L R addr i
  · obtain ⟨left, right', same, inside, _⟩ := stabBinsearch_met low range high met
    rw [returned] at same
    cases same
    omega
  · simp only [not_forall, not_not] at met
    obtain ⟨i, unmet⟩ := met
    cases unmet with
    | start only | before only =>
      obtain ⟨left, right', same, missed | ⟨edge, ordered, _, none, _⟩⟩ :=
        stabBinsearch_onlyAbove low range high only
      · rw [returned] at same
        cases same
        have := missed.left
        omega
      · rw [returned] at same
        cases same
        -- the range begins with a stab of the type, so nothing is left of it
        by_contra other
        rw [if_pos (none L (Int.le_refl L) (by omega))] at edge
        omega
    | wrapped falls =>
      rw [stabBinsearch_fallsBack low high falls, Except.ok.injEq, Prod.mk.injEq] at returned
      exact returned.2.symm.trans returned.1

/-! ### The region -/

/-- The search with the bisection that is left, which closes where the whole one does. -/
structure Closing (stabs : List Stab) (type L R : Int) (addr : UInt32) (v : SearchVars) :
    Prop where
  ranged : Ranged stabs type L R v
  closes : ∀ e, ClosesAt (stabKey stabs type) v.l v.r v.addr e →
    ClosesAt (stabKey stabs type) L R addr e
  region : v.regionLeft = L ∨ stabKey stabs type v.regionLeft ≠ none

theorem Closing.kept (low : 0 ≤ L) (high : R < stabs.length) (v v' : SearchVars)
    (closing : Closing stabs type L R addr v) (open_ : v.l ≤ v.r)
    (turn : v.probe stabs type = .ok v') : Closing stabs type L R addr v' := by
  have ranged' := closing.ranged.kept low high v v' open_ turn
  obtain ⟨ranged, closes, region⟩ := closing
  have left_in := ranged.left_in
  have right_in := ranged.right_in
  rcases turn_bisects turn (by omega) open_ (by omega) with ⟨skipped, rfl⟩ | ⟨m, b, nearest, outcome⟩
  · exact ⟨ranged', fun e rest => closes e (.skip open_ skipped rest), region⟩
  have typed : stabKey stabs type m ≠ none := by simp [nearest.here]
  rcases outcome with ⟨less, rfl⟩ | ⟨greater, rfl⟩ | ⟨exact_, rfl⟩
  · exact ⟨ranged', fun e rest => closes e (.less nearest less rest), .inr typed⟩
  · exact ⟨ranged', fun e rest => closes e (.greater nearest greater rest), region⟩
  · exact ⟨ranged', fun e rest => closes e (.hit nearest exact_ rest), .inr typed⟩

/-- A search of a range with a stab of the type ends where the bisection closes, on the last stab
of the type up to there unless it has crossed it. -/
theorem stabBinsearch_closing (low : 0 ≤ L) (range : L ≤ R + 1) (high : R < stabs.length)
    (present : ∃ i, L ≤ i ∧ i ≤ R ∧ stabKey stabs type i ≠ none) :
    ∃ left right, stabBinsearch stabs L R type addr = .ok (left, right) ∧
      ClosesAt (stabKey stabs type) L R addr right ∧
      (left = right ∨ L ≤ left ∧ left < right ∧
        (∀ i, left < i → i ≤ right → stabKey stabs type i = none) ∧
        (left = L ∨ stabKey stabs type left ≠ none)) := by
  obtain ⟨v, searched, final, empty⟩ := search_total stabs type (Closing stabs type L R addr)
    (fun v here => ⟨by have := here.ranged.left_in; omega,
      by have := here.ranged.right_in; omega⟩)
    (Closing.kept low high) _ ⟨@Ranged.start stabs type L R addr range, fun _ rest => rest, .inl rfl⟩
  obtain ⟨ranged, closes, region⟩ := final
  have matched : v.anyMatches = true := by
    by_contra unmatched
    obtain ⟨whole, _, clear⟩ := ranged.fresh (Bool.eq_false_iff.mpr unmatched)
    obtain ⟨i, above, below, typed⟩ := present
    exact typed (clear i above (by omega))
  obtain ⟨left, returned, outcome⟩ := ranged.result low high matched searched
  have regionLow := (ranged.region matched).1
  refine ⟨left, v.r, returned, closes v.r (.closed empty), ?_⟩
  rcases outcome with ⟨_, rfl⟩ | ⟨above, below, none, stop⟩
  · exact .inl rfl
  · by_cases last : left = v.r
    · exact .inl last
    · refine .inr ⟨by omega, by omega, none, ?_⟩
      rcases stop with rfl | typed
      · exact region
      · exact .inr typed

/-- A region of more than one stab is found where the table says, in a range that begins with a
stab of another type. -/
theorem stabBinsearch_endsOn (low : 0 ≤ L) (range : L ≤ R + 1) (high : R < stabs.length)
    (first : stabKey stabs type L = none) {k e : Int} (wide : k < e) :
    stabBinsearch stabs L R type addr = .ok (k, e) ↔
      EndsOn (stabKey stabs type) L R addr k e := by
  constructor
  · intro returned
    have present : ∃ i, L ≤ i ∧ i ≤ R ∧ stabKey stabs type i ≠ none := by
      obtain ⟨left, right, same, missed | matched⟩ :=
        stabBinsearch_total stabs type addr low range high
      · rw [returned] at same
        cases same
        have := missed.left
        have := missed.right
        omega
      · exact matched.present
    obtain ⟨left, right, same, closes, crossed | ⟨above, _, none, stop⟩⟩ :=
      stabBinsearch_closing low range high present
    · rw [returned] at same
      cases same
      omega
    · rw [returned] at same
      cases same
      refine ⟨present, fun m falls => ?_, closes, above, none, stop⟩
      rw [stabBinsearch_fallsBack low high falls] at returned
      cases returned
      omega
  · rintro ⟨present, stays, closes, above, none, stop⟩
    obtain ⟨left, right, returned, closes', outcome⟩ := stabBinsearch_closing low range high present
    obtain rfl := closes.unique closes'
    rcases outcome with rfl | ⟨above', wide', none', stop'⟩
    · -- the search would end on a stab of the type, or at the beginning of the range
      exfalso
      by_cases met : ∀ i, ¬Unmet (stabKey stabs type) L R addr i
      · obtain ⟨_, _, same, _, _, typed⟩ := stabBinsearch_met low range high met
        rw [returned] at same
        cases same
        exact typed (none left wide (Int.le_refl _))
      · simp only [not_forall, not_not] at met
        obtain ⟨i, unmet⟩ := met
        cases unmet with
        | start only =>
          obtain ⟨right, same⟩ := stabBinsearch_unmet low range high (.start only fun _ => first)
          rw [returned] at same
          cases same
          omega
        | before _ _ typed => exact typed first
        | wrapped falls => exact stays _ falls
    · -- both are the last stab of the type up to the end
      rcases Int.lt_trichotomy left k with before | rfl | after
      · rcases stop with rfl | typed
        · omega
        · exact absurd (none' k before (by omega)) typed
      · exact returned
      · rcases stop' with rfl | typed
        · omega
        · exact absurd (none left after (by omega)) typed

/-! ### The last address on an ascending range -/

/-- A stab at the last address makes the search for it wrap around. -/
theorem fallsBack_of_last {key : Int → Option Nat} {l r : Int} (ascending : Ascending key l r)
    (top : addr.toNat = 4294967295) {i : Int} (left : l ≤ i) (right : i ≤ r)
    (last : key i = some 4294967295) (bound : ∀ i v, key i = some v → v ≤ 4294967295) :
    ∃ m, FallsBack key l r addr m ∧ l ≤ m ∧ m ≤ r ∧ key m = some 4294967295 := by
  induction width : (r - l).toNat using Nat.strong_induction_on generalizing l with
  | _ width ih =>
    -- what is ascending on the range is so to the right of its middle
    have rest : (l + r) / 2 < i → ∃ m, FallsBack key ((l + r) / 2 + 1) r addr m ∧ l ≤ m ∧ m ≤ r ∧
        key m = some 4294967295 := by
      intro beyond
      obtain ⟨m, falls, low, high, here⟩ := ih (r - ((l + r) / 2 + 1)).toNat (by omega)
        (fun i j v w low => ascending i j v w (by omega)) (by omega : (l + r) / 2 + 1 ≤ i) rfl
      exact ⟨m, falls, by omega, high, here⟩
    rcases skipped_or_nearest key l r with skipped | ⟨m, b, nearest⟩
    · obtain ⟨m, falls, placed⟩ := rest (by
        by_contra inside
        rw [skipped i left (by omega)] at last
        cases last)
      exact ⟨m, .skip (by omega) skipped falls, placed⟩
    have low := nearest.left
    have inside := nearest.inside
    by_cases hit : b = 4294967295
    · -- all keys from there on are at the last address
      have only : OnlyAbove key 0 m r := by
        refine .of_all fun j v above below here => ?_
        by_cases same : j = m
        · rw [same, nearest.here] at here
          cases here
          omega
        · have := ascending m j b v low (by omega) below nearest.here here
          omega
      exact ⟨m, .last nearest (by omega) top only, low, by omega, by rw [nearest.here, hit]⟩
    · have small := bound m b nearest.here
      obtain ⟨m', falls, placed⟩ := rest (by
        by_contra inside'
        rcases Int.lt_trichotomy i m with before | rfl | after
        · have := ascending i m _ b left before (by omega) last nearest.here
          omega
        · rw [nearest.here, Option.some.injEq] at last
          exact hit last
        · rw [nearest.none i after (by omega)] at last
          cases last)
      exact ⟨m', .less nearest (by omega) falls, placed⟩

/-! ### Short ranges -/

/-- Without a stab of the type the search leaves the beginning of the range. -/
theorem stabBinsearch_none (low : 0 ≤ L) (range : L ≤ R + 1) (high : R < stabs.length)
    (addr : UInt32) (none : ∀ i, L ≤ i → i ≤ R → stabKey stabs type i = none) :
    stabBinsearch stabs L R type addr = .ok (L, L - 1) := by
  obtain ⟨left, right, returned, missed | matched⟩ := stabBinsearch_total stabs type addr low range high
  · rw [returned, missed.left, missed.right]
  · obtain ⟨i, above, below, typed⟩ := matched.present
    exact absurd (none i above below) typed

section Single

variable {i : Int} {b : Nat}

/-- A stab alone in its range is found when it is not above the address. -/
theorem stabBinsearch_single (low : 0 ≤ i) (high : i < stabs.length)
    (here : stabKey stabs type i = some b) (small : b ≤ addr.toNat)
    (noWrap : ¬(b = 4294967295 ∧ addr.toNat = 4294967295)) :
    stabBinsearch stabs i i type addr = .ok (i, i) := by
  have wrapFree : WrapFree stabs type i i addr.toNat := by
    intro j above below key
    obtain rfl : j = i := by omega
    rw [here, Option.some.injEq] at key
    have := stabKey_lt here
    omega
  obtain ⟨left, right, returned, enclosed⟩ := stabBinsearch_enclosed low (Int.le_refl i) high
    (fun j j' _ _ above before below => by omega)
    (fun j j' above below above' below' key key' => by
      obtain rfl : j = i := by omega
      obtain rfl : j' = j := by omega
      rw [key, Option.some.injEq] at key'
      omega)
    wrapFree ⟨i, b, Int.le_refl i, Int.le_refl i, here, small⟩
  have left_in := enclosed.left_in
  have ordered := enclosed.ordered
  have right_in := enclosed.right_in
  rw [returned, show left = i by omega, show right = i by omega]

/-- Otherwise the search ends just before it. -/
theorem stabBinsearch_single_above (low : 0 ≤ i) (high : i < stabs.length)
    (here : stabKey stabs type i = some b)
    (large : addr.toNat < b ∨ b = 4294967295 ∧ addr.toNat = 4294967295) :
    stabBinsearch stabs i i type addr = .ok (i - 1, i - 1) := by
  have only : ∀ j c, i ≤ j → j ≤ i → stabKey stabs type j = some c → c = b := by
    intro j c above below key
    obtain rfl : j = i := by omega
    exact Option.some.inj (key.symm.trans here)
  rcases large with large | ⟨rfl, top⟩
  · have onlyAbove : OnlyAbove (stabKey stabs type) addr.toNat i i :=
      .of_all fun j c above below key => by rwa [only j c above below key]
    obtain ⟨right, returned⟩ := stabBinsearch_unmet low (by omega) high
      (.before onlyAbove (Int.le_refl i) (by simp [here]))
    rw [returned, stabBinsearch_before low (by omega) high returned]
  · have ascending : Ascending (stabKey stabs type) i i := fun j j' _ _ above before below => by omega
    have bound : ∀ j c, stabKey stabs type j = some c → c ≤ 4294967295 := fun j c key => by
      have := stabKey_lt key
      omega
    obtain ⟨m, falls, above, below, _⟩ :=
      fallsBack_of_last ascending top (Int.le_refl i) (Int.le_refl i) here bound
    obtain rfl : m = i := by omega
    exact stabBinsearch_fallsBack low high falls

end Single

end Jos
