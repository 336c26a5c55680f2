import Jos.Kern.StabBounds

/-!
# stab_binsearch among neighbouring stabs

After an exact hit the search goes on for the next address, so a stab that lies exactly there
is taken for a hit, too, unless the bisection has met it before. What the bisection meets first
depends only on where the stabs of the type stand.
-/
namespace Jos

open Library

/-- `left` is a stab of the type in `[L, R]` that does not begin after the address `a`. -/
structure NotAfter (stabs : List Stab) (type L R : Int) (a : Nat) (left : Int) : Prop where
  inside : L ≤ left ∧ left ≤ R
  below : ∃ b, stabKey stabs type left = some b ∧ b ≤ a

/-- The stab at `e` lies at the address `a`, and the one at `e'` exactly after it. -/
structure Neighbours (stabs : List Stab) (type L R : Int) (a : Nat) (e e' : Int) : Prop where
  low : L ≤ e
  high : e' ≤ R
  here : stabKey stabs type e = some a
  there : stabKey stabs type e' = some (a + 1)
  ordered : e < e'

variable {stabs : List Stab} {type L R e e' : Int} {a : Nat}

/-- No stab of the type stands between the two. -/
theorem Neighbours.not_between (strict : StrictAscending (stabKey stabs type) L R)
    (pair : Neighbours stabs type L R a e e') {i : Int} (after : e < i) (before : i < e') :
    stabKey stabs type i = none := by
  have low := pair.low
  have high := pair.high
  by_contra typed
  obtain ⟨b, key⟩ := Option.ne_none_iff_exists'.mp typed
  have above := strict e i a b low after (by omega) pair.here key
  have below := strict i e' b (a + 1) (by omega) before high key pair.there
  omega

/-- There is at most one such pair. -/
theorem Neighbours.unique (strict : StrictAscending (stabKey stabs type) L R)
    (pair : Neighbours stabs type L R a e e') {d d' : Int}
    (other : Neighbours stabs type L R a d d') : e = d ∧ e' = d' := by
  obtain ⟨lowE, highE, here, there, ordered⟩ := pair
  obtain ⟨lowD, highD, here', there', ordered'⟩ := other
  exact ⟨strict.index_eq lowE (by omega) lowD (by omega) here here',
    strict.index_eq (by omega) highE (by omega) highD there there'⟩

/-- One turn of a search for `a` that has the stab at `a` before it: it drops what lies before
that stab, or what lies from its neighbour on, or it hits. -/
theorem turn_neighbours (strict : StrictAscending (stabKey stabs type) L R)
    (pair : Neighbours stabs type L R a e e') {v v' : SearchVars}
    (turn : v.probe stabs type = .ok v') (low : 0 ≤ L) (high : R < stabs.length)
    (left_in : L ≤ v.l) (right_in : v.r ≤ R) (target : v.addr.toNat = a) (before : v.l ≤ e)
    (after : e ≤ v.r) :
    ((v.l + v.r) / 2 < e ∧ ∃ any region, v' =
        { v with anyMatches := any, regionLeft := region, l := (v.l + v.r) / 2 + 1 }) ∨
      (∃ m, e' ≤ m ∧ m ≤ (v.l + v.r) / 2 ∧ stabKey stabs type m ≠ none ∧
        (∀ i, m < i → i ≤ (v.l + v.r) / 2 → stabKey stabs type i = none) ∧
        v' = { v with anyMatches := true, regionRight := m - 1, r := m - 1 }) ∨
      (e ≤ (v.l + v.r) / 2 ∧ (∀ i, e < i → i ≤ (v.l + v.r) / 2 → stabKey stabs type i = none) ∧
        v' = { v with anyMatches := true, regionLeft := e, l := e, addr := v.addr + 1 }) := by
  obtain ⟨t, rfl, above, below, ⟨skipped, none⟩ | ⟨m, b, past, inside, here, none, outcome⟩⟩ :=
    turn_cases turn (by omega) (by omega) (by omega)
  · left
    exact ⟨lt_of_no_keys none pair.here before, v.anyMatches, v.regionLeft, skipped⟩
  · rcases outcome with ⟨smaller, returned⟩ | ⟨larger, returned⟩ | ⟨exact_, returned⟩
    · left
      have order := strict.index_lt (by omega) pair.low here pair.here (by omega)
      exact ⟨lt_of_no_keys (fun j after => none j (by omega)) pair.here order, true, m, returned⟩
    · right; left
      have order := strict.index_lt (by omega) (by omega) pair.here here (by omega)
      refine ⟨m, ?_, inside, by simp [here], none, returned⟩
      by_contra between
      rw [pair.not_between strict order (by omega)] at here
      cases here
    · right; right
      obtain rfl : m = e := strict.index_eq (by omega) (by omega) pair.low (by omega)
        (by rw [here, exact_, target]) pair.here
      exact ⟨inside, none, returned⟩

/-! ### The neighbour is met first -/

/-- Either the stab is still to be hit, and its neighbour is met before it if at all, or it has
been hit with the neighbour out of reach. -/
inductive Avoids (stabs : List Stab) (type : Int) (a : Nat) (e e' : Int) (v : SearchVars) :
    Prop where
  | searching : v.addr.toNat = a → v.l ≤ e → e ≤ v.r →
      (e' ≤ v.r → LaterFirst (stabKey stabs type) e e' v.l v.r) → Avoids stabs type a e e' v
  | hit : v.addr.toNat = a + 1 →
      (∀ i, v.l ≤ i → i ≤ v.r → stabKey stabs type i ≠ some (a + 1)) → Avoids stabs type a e e' v

theorem Avoids.clear {v : SearchVars} (avoids : Avoids stabs type a e e' v) :
    v.Clear stabs type a := by
  intro next
  cases avoids with
  | searching same => omega
  | hit _ clear => exact clear

theorem Avoids.kept (strict : StrictAscending (stabKey stabs type) L R)
    (pair : Neighbours stabs type L R a e e') (small : a < 4294967295) (low : 0 ≤ L)
    (high : R < stabs.length) (v v' : SearchVars) (left_in : L ≤ v.l) (right_in : v.r ≤ R)
    (avoids : Avoids stabs type a e e' v) (open_ : v.l ≤ v.r)
    (turn : v.probe stabs type = .ok v') : Avoids stabs type a e e' v' := by
  have ordered := pair.ordered
  cases avoids with
  | searching target before after later =>
    rcases turn_neighbours strict pair turn low high left_in right_in target before after with
      ⟨left, any, region, rfl⟩ | ⟨m, right, inside, typed, none, rfl⟩ | ⟨inside, none, rfl⟩
    · exact .searching target (by dsimp only; omega) after
        fun reach => (LaterFirst.right_iff ordered left).mp (later reach)
    · refine .searching target before (by dsimp only; omega) fun reach => ?_
      dsimp only at reach
      exact (LaterFirst.left_iff ordered (by omega) inside typed none).mp (later (by omega))
    · refine .hit ?_ fun i above below next => ?_
      · dsimp only
        rw [addr_succ_of_lt (by omega), target]
      · dsimp only at above below
        -- the only stab at `a + 1` would have had to be met before
        obtain rfl : i = e' := strict.index_eq (by omega) (by omega) (by have := pair.low; omega)
          pair.high next pair.there
        exact LaterFirst.not_of_met ordered (by simp [pair.there]) inside none (later below)
  | hit next clear =>
    -- what has no stab at `a + 1` has none in a part of it
    obtain ⟨t, _, above, below, ⟨rfl, _⟩ | ⟨m, b, past, inside, here, _, outcome⟩⟩ :=
      turn_cases turn (by omega) open_ (by omega)
    · exact .hit next fun i low high => clear i (by dsimp only at low; omega) high
    · rcases outcome with ⟨_, rfl⟩ | ⟨_, rfl⟩ | ⟨exact_, _⟩
      · exact .hit next fun i low high => clear i (by dsimp only at low; omega) high
      · exact .hit next fun i low high => clear i low (by dsimp only at high; omega)
      · exact absurd (by rw [here, exact_, next]) (clear m past (by omega))

theorem stabBinsearch_avoids {addr : UInt32} (low : 0 ≤ L) (range : L ≤ R)
    (high : R < stabs.length) (strict : StrictAscending (stabKey stabs type) L R)
    (small : addr.toNat < 4294967295) (pair : Neighbours stabs type L R addr.toNat e e')
    (later : LaterFirst (stabKey stabs type) e e' L R) :
    ∃ left right, stabBinsearch stabs L R type addr = .ok (left, right) ∧
      Enclosed (stabKey stabs type) L R addr.toNat left right := by
  have ordered := pair.ordered
  have highE := pair.high
  obtain ⟨v, searched, ⟨final, _⟩, empty⟩ := search_total stabs type
    (fun v => Searching stabs type L R addr.toNat v ∧ Avoids stabs type addr.toNat e e' v)
    (fun v here => ⟨by have := here.1.bracket.left_in; omega,
      by have := here.1.bracket.right_in; omega⟩)
    (fun v v' ⟨searching, avoids⟩ open_ turn =>
      ⟨searching.step strict.ascending (wrapFree_of_lt small) low high v v' avoids.clear open_ turn,
        avoids.kept strict pair small low high v v' searching.bracket.left_in
          searching.bracket.right_in open_ turn⟩)
    _ ⟨@Searching.start stabs type L R addr range,
      .searching rfl pair.low (by dsimp only; omega) fun _ => later⟩
  exact final.enclosed low high empty searched
    ⟨e, _, pair.low, by omega, pair.here, Nat.le_refl _⟩

/-! ### The stab at the address is met first -/

/-- How a search that hits the stab at `a` with its neighbour in reach goes on to hit that, too.
The address after the last one is 0. -/
inductive Overruns (stabs : List Stab) (type : Int) (a : Nat) (e e' : Int) (v : SearchVars) :
    Prop where
  | searching : v.addr.toNat = a → v.l ≤ e → e' ≤ v.r →
      ¬LaterFirst (stabKey stabs type) e e' v.l v.r → Overruns stabs type a e e' v
  | hit : v.addr.toNat = a + 1 → v.l ≤ e' → e' ≤ v.r → Overruns stabs type a e e' v
  | past : a ≠ 4294967294 → v.anyMatches = true → e' ≤ v.l → e' ≤ v.r → e' ≤ v.regionLeft →
      (v.l = e' → v.addr.toNat = a + 2) → Overruns stabs type a e e' v
  | wrapped : a = 4294967294 → v.anyMatches = true → v.l = e' → v.regionLeft = e' →
      v.addr.toNat = 0 → Overruns stabs type a e e' v

namespace Overruns

section Turn

variable (strict : StrictAscending (stabKey stabs type) L R)
  (pair : Neighbours stabs type L R a e e') (low : 0 ≤ L) (high : R < stabs.length)
  {v v' : SearchVars} (left_in : L ≤ v.l) (right_in : v.r ≤ R) (open_ : v.l ≤ v.r)
  (turn : v.probe stabs type = .ok v')
include strict pair low high left_in right_in turn

theorem searching_turn (target : v.addr.toNat = a) (before : v.l ≤ e) (after : e' ≤ v.r)
    (sooner : ¬LaterFirst (stabKey stabs type) e e' v.l v.r) :
    Overruns stabs type a e e' v' := by
  have ordered := pair.ordered
  have bound := stabKey_lt pair.there
  rcases turn_neighbours strict pair turn low high left_in right_in target before (by omega) with
    ⟨left, any, region, rfl⟩ | ⟨m, right, inside, typed, none, rfl⟩ | ⟨inside, none, rfl⟩
  · exact .searching target (by dsimp only; omega) after
      fun later => sooner ((LaterFirst.right_iff ordered left).mpr later)
  · -- the neighbour itself cannot be what was met
    have other : m ≠ e' := by
      rintro rfl
      exact sooner (.met inside none)
    exact .searching target before (by dsimp only; omega) fun later =>
      sooner ((LaterFirst.left_iff ordered (by omega) inside typed none).mpr later)
  · refine .hit ?_ (by dsimp only; omega) after
    dsimp only
    rw [addr_succ_of_lt (by omega), target]

include open_

/-- The neighbour is now what is looked for, so it stays in reach until it is hit. -/
theorem hit_turn (next : v.addr.toNat = a + 1) (before : v.l ≤ e') (after : e' ≤ v.r) :
    Overruns stabs type a e e' v' := by
  have highE := pair.high
  have bound := stabKey_lt pair.there
  obtain ⟨t, _, above, below, ⟨rfl, none⟩ | ⟨m, b, past, inside, here, none, outcome⟩⟩ :=
    turn_cases turn (by omega) open_ (by omega)
  · exact .hit next (lt_of_no_keys none pair.there before) after
  · rcases outcome with ⟨smaller, rfl⟩ | ⟨larger, rfl⟩ | ⟨exact_, rfl⟩
    · have order := strict.index_lt (by omega) (by omega) here pair.there (by omega)
      exact .hit next (lt_of_no_keys (fun j after => none j (by omega)) pair.there order) after
    · have order := strict.index_lt highE (by omega) pair.there here (by omega)
      exact .hit next before (by dsimp only; omega)
    · obtain rfl : m = e' := strict.index_eq (by omega) (by omega) (by omega) highE
        (by rw [here, exact_, next]) pair.there
      by_cases last : a = 4294967294
      · refine .wrapped last rfl rfl rfl ?_
        dsimp only
        rw [addr_succ, if_pos (by omega)]
      · refine .past last rfl (Int.le_refl _) after (Int.le_refl _) fun _ => ?_
        dsimp only
        rw [addr_succ_of_lt (by omega), next]

/-- Nothing lies after the last address. -/
theorem wrapped_turn (last : a = 4294967294) (left : v.l = e') (region : v.regionLeft = e')
    (zero : v.addr.toNat = 0) : Overruns stabs type a e e' v' := by
  have ordered := pair.ordered
  have lowE := pair.low
  obtain ⟨t, _, above, below, ⟨_, none⟩ | ⟨m, b, past, inside, here, _, outcome⟩⟩ :=
    turn_cases turn (by omega) open_ (by omega)
  · have := lt_of_no_keys none pair.there (by omega)
    omega
  · have bound := stabKey_lt here
    obtain rfl : m = e' := by
      by_contra other
      have := strict e' m (a + 1) b (by omega) (by omega) (by omega) pair.there here
      omega
    rw [pair.there, Option.some.injEq] at here
    rcases outcome with ⟨smaller, _⟩ | ⟨_, rfl⟩ | ⟨exact_, _⟩
    · omega
    · exact .wrapped last rfl left region zero
    · omega

omit strict

/-- The neighbour has been hit, and from now on lies below the address. -/
theorem past_turn (inner : a ≠ 4294967294) (any : v.anyMatches = true) (left : e' ≤ v.l)
    (right : e' ≤ v.r) (region : e' ≤ v.regionLeft)
    (atLeft : v.l = e' → v.addr.toNat = a + 2) : Overruns stabs type a e e' v' := by
  obtain ⟨t, _, above, below, ⟨rfl, _⟩ | ⟨m, b, past, inside, here, _, outcome⟩⟩ :=
    turn_cases turn (by omega) open_ (by omega)
  · exact .past inner any (by dsimp only; omega) right region
      fun edge => by dsimp only at edge; omega
  · have beyond : m = e' → b < v.addr.toNat := by
      rintro rfl
      rw [pair.there, Option.some.injEq] at here
      have := atLeft (by omega)
      omega
    rcases outcome with ⟨_, rfl⟩ | ⟨larger, rfl⟩ | ⟨exact_, rfl⟩
    · exact .past inner rfl (by dsimp only; omega) right (by dsimp only; omega)
        fun edge => by dsimp only at edge; omega
    · have other : m ≠ e' := fun same => by have := beyond same; omega
      exact .past inner rfl left (by dsimp only; omega) region atLeft
    · have other : m ≠ e' := fun same => by have := beyond same; omega
      exact .past inner rfl (by dsimp only; omega) right (by dsimp only; omega)
        fun edge => absurd edge other

end Turn

theorem kept (strict : StrictAscending (stabKey stabs type) L R)
    (pair : Neighbours stabs type L R a e e') (low : 0 ≤ L) (high : R < stabs.length)
    (v v' : SearchVars) (left_in : L ≤ v.l) (right_in : v.r ≤ R)
    (overruns : Overruns stabs type a e e' v) (open_ : v.l ≤ v.r)
    (turn : v.probe stabs type = .ok v') : Overruns stabs type a e e' v' := by
  cases overruns with
  | searching target before after sooner =>
    exact searching_turn strict pair low high left_in right_in turn target before after sooner
  | hit next before after =>
    exact hit_turn strict pair low high left_in right_in open_ turn next before after
  | past inner any left right region atLeft =>
    exact past_turn pair low high left_in right_in open_ turn inner any left right region atLeft
  | wrapped last any left region zero =>
    exact wrapped_turn strict pair low high left_in right_in open_ turn last left region zero

end Overruns

theorem stabBinsearch_overruns {addr : UInt32} (low : 0 ≤ L) (range : L ≤ R)
    (high : R < stabs.length) (strict : StrictAscending (stabKey stabs type) L R)
    (pair : Neighbours stabs type L R addr.toNat e e')
    (sooner : ¬LaterFirst (stabKey stabs type) e e' L R) :
    ∃ left right, stabBinsearch stabs L R type addr = .ok (left, right) ∧ left ≤ R ∧
      (addr.toNat ≠ 4294967294 → e' ≤ left) ∧ (addr.toNat = 4294967294 → left = e' - 1) := by
  have ordered := pair.ordered
  obtain ⟨v, searched, ⟨ranged, overruns⟩, empty⟩ := search_total stabs type
    (fun v => Ranged stabs type L R v ∧ Overruns stabs type addr.toNat e e' v)
    (fun v here => ⟨by have := here.1.left_in; omega, by have := here.1.right_in; omega⟩)
    (fun v v' ⟨ranged, overruns⟩ open_ turn =>
      ⟨ranged.kept low high v v' open_ turn,
        overruns.kept strict pair low high v v' ranged.left_in ranged.right_in open_ turn⟩)
    _ ⟨@Ranged.start stabs type L R addr (by omega),
      .searching rfl pair.low pair.high sooner⟩
  have right_in := ranged.right_in
  have meet := ranged.meet
  cases overruns with
  | searching => omega
  | hit => omega
  | past inner any left right region =>
    obtain ⟨result, returned, outcome⟩ := ranged.result low high any searched
    refine ⟨result, v.r, returned, ?_⟩
    rcases outcome with ⟨_, rfl⟩ | ⟨above, below, _⟩
    · exact ⟨right_in, fun _ => right, fun last => absurd last inner⟩
    · exact ⟨by omega, fun _ => by omega, fun last => absurd last inner⟩
  | wrapped last any left region =>
    obtain ⟨result, returned, outcome⟩ := ranged.result low high any searched
    refine ⟨result, v.r, returned, ?_⟩
    rcases outcome with ⟨_, rfl⟩ | ⟨above, below, _⟩
    · exact ⟨right_in, fun inner => absurd last inner, fun _ => by omega⟩
    · omega

/-- On a strictly ascending range the result is a stab at or below the address exactly when the
bisection meets the stab after the address before the one at it, wherever both are there. At
the last address but one the search falls back from the second stab, which does no harm if the
first one comes directly before it. -/
theorem stabBinsearch_notAfter_iff (low : 0 ≤ L) (range : L ≤ R) (high : R < stabs.length)
    (strict : StrictAscending (stabKey stabs type) L R) {addr : UInt32} (small : addr < 0xffffffff)
    (present : ∃ i b, L ≤ i ∧ i ≤ R ∧ stabKey stabs type i = some b ∧ b ≤ addr.toNat) :
    ∃ left right, stabBinsearch stabs L R type addr = .ok (left, right) ∧
      (NotAfter stabs type L R addr.toNat left ↔
        ∀ e e', Neighbours stabs type L R addr.toNat e e' →
          LaterFirst (stabKey stabs type) e e' L R ∨
            (addr.toNat = 4294967294 ∧ e' = e + 1)) := by
  have smallAddr : addr.toNat < 4294967295 := by
    simpa [UInt32.lt_iff_toNat_lt] using small
  have found : ∀ left right, Enclosed (stabKey stabs type) L R addr.toNat left right →
      NotAfter stabs type L R addr.toNat left := fun left right enclosed =>
    ⟨⟨enclosed.left_in, Int.le_trans enclosed.ordered enclosed.right_in⟩, enclosed.found⟩
  by_cases paired : ∃ e e', Neighbours stabs type L R addr.toNat e e'
  · obtain ⟨e, e', pair⟩ := paired
    by_cases later : LaterFirst (stabKey stabs type) e e' L R
    · obtain ⟨left, right, returned, enclosed⟩ :=
        stabBinsearch_avoids low range high strict smallAddr pair later
      refine ⟨left, right, returned, fun _ d d' other => .inl ?_, fun _ => found _ _ enclosed⟩
      obtain ⟨rfl, rfl⟩ := other.unique strict pair
      exact later
    · obtain ⟨left, right, returned, left_in, inner, last⟩ :=
        stabBinsearch_overruns low range high strict pair later
      refine ⟨left, right, returned, ?_, ?_⟩
      · rintro ⟨inside, b, key, below⟩ d d' other
        obtain ⟨rfl, rfl⟩ := other.unique strict pair
        right
        by_cases top : addr.toNat = 4294967294
        · refine ⟨top, ?_⟩
          by_contra apart
          have := last top
          have := pair.ordered
          rw [pair.not_between strict (by omega) (by omega)] at key
          cases key
        · have := strict.index_lt inside.2 (by have := pair.low; have := pair.ordered; omega) key
            pair.there (by omega)
          have := inner top
          omega
      · intro condition
        rcases condition e e' pair with first | ⟨top, next⟩
        · exact absurd first later
        · have same : left = e := by have := last top; omega
          exact ⟨⟨by rw [same]; exact pair.low, left_in⟩, _, by rw [same]; exact pair.here,
            Nat.le_refl _⟩
  · have apart : Apart stabs type L R addr.toNat := by
      intro i j lowI highI lowJ highJ keyI keyJ
      exact paired ⟨i, j, lowI, highJ, keyI, keyJ,
        strict.index_lt highI lowJ keyI keyJ (by omega)⟩
    obtain ⟨left, right, returned, enclosed⟩ :=
      stabBinsearch_enclosed low range high strict.ascending apart
        (wrapFree_of_lt smallAddr) present
    exact ⟨left, right, returned, fun _ e e' pair => absurd ⟨e, e', pair⟩ paired,
      fun _ => found _ _ enclosed⟩

/-- The lines of two instructions, the first one of a single byte. -/
def adjacentLines : List Stab := [⟨0, 0x44, 7, 0x10⟩, ⟨0, 0x44, 8, 0x11⟩]

theorem adjacentLines_strict : StrictAscending (stabKey adjacentLines N_SLINE) 0 1 := by
  intro i j v w low before high keyI keyJ
  obtain ⟨rfl, rfl⟩ : i = 0 ∧ j = 1 := by omega
  cases keyI
  cases keyJ
  decide

theorem stabBinsearch_notAfter_iff_second :
    ∃ left right, stabBinsearch adjacentLines 0 1 N_SLINE 0x11 = .ok (left, right) ∧
      (NotAfter adjacentLines N_SLINE 0 1 0x11 left ↔
        ∀ e e', Neighbours adjacentLines N_SLINE 0 1 0x11 e e' →
          LaterFirst (stabKey adjacentLines N_SLINE) e e' 0 1 ∨
            ((0x11 : UInt32).toNat = 4294967294 ∧ e' = e + 1)) :=
  stabBinsearch_notAfter_iff (by decide) (by decide) (by decide) adjacentLines_strict (by decide)
    ⟨0, 0x10, by decide, by decide, rfl, by decide⟩

/-- The first instruction is looked for, and the line of the second one is reported. -/
theorem stabBinsearch_notAfter_first :
    stabBinsearch adjacentLines 0 1 N_SLINE 0x10 = .ok (1, 1) ∧
      ¬NotAfter adjacentLines N_SLINE 0 1 0x10 1 := by
  refine ⟨by decide, ?_⟩
  rintro ⟨_, b, key, below⟩
  cases key
  exact absurd below (by decide)

end Jos
