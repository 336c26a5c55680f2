import Jos.Kern.Kdebug
import Jos.Library.SparseSearch

/-!
# stab_binsearch brackets an address

`probe_cases` says once what a turn of the search loop can do. Termination (on any table)
and the bracket (on an ascending one) are both read off it.
-/
namespace Jos

open Library

/-- The address of stab `i`, if it is one of the searched type. -/
def stabKey (stabs : List Stab) (type i : Int) : Option Nat :=
  match readAt stabs i with
  | .ok s => if s.type = type then some s.nValue.toNat else none
  | .error _ => none

theorem stabKey_eq_some_iff {stabs : List Stab} {type i : Int} {v : Nat} :
    stabKey stabs type i = some v ↔
      ∃ s, readAt stabs i = .ok s ∧ s.type = type ∧ s.nValue.toNat = v := by
  unfold stabKey
  cases readAt stabs i <;> simp

theorem stabKey_lt {stabs : List Stab} {type i : Int} {b : Nat}
    (key : stabKey stabs type i = some b) : b < 4294967296 := by
  obtain ⟨s, _, _, rfl⟩ := stabKey_eq_some_iff.mp key
  exact s.nValue.toNat_lt

theorem readAt_inside (stabs : List Stab) {i : Int} (low : 0 ≤ i) (high : i < stabs.length) :
    ∃ s, readAt stabs i = .ok s := by
  obtain ⟨n, rfl⟩ := Int.eq_ofNat_of_zero_le low
  exact ⟨_, readAt_natCast (by omega)⟩

/-- The slide stops at the nearest stab of the type, or just below `l`. -/
theorem slideLeft_total (stabs : List Stab) (type : Int) {l m : Int} (low : 0 ≤ l)
    (near : l ≤ m + 1) (high : m < stabs.length) :
    ∃ m', slideLeft stabs type l m = .ok m' ∧ l ≤ m' + 1 ∧ m' ≤ m ∧
      (∀ i, m' < i → i ≤ m → stabKey stabs type i = none) ∧
      (m' < l ∨ ∃ s, readAt stabs m' = .ok s ∧ s.type = type) := by
  -- every stab that the slide has passed is of another type
  have ended := whileLoop_total
    (fun m => if m ≥ l then (fun s => decide (s.type ≠ type)) <$> readAt stabs m
      else pure false)
    (fun m => pure (m - 1))
    (fun m' => l ≤ m' + 1 ∧ m' ≤ m ∧ ∀ i, m' < i → i ≤ m → stabKey stabs type i = none)
    (fun m' => (m' - l + 1).toNat) ?_ ((m - l + 1).toNat + 1) m
    ⟨near, by omega, fun i _ _ => by omega⟩ (by omega)
  · obtain ⟨m', returned, ⟨above, below, none⟩, stopped⟩ := ended
    refine ⟨m', returned, above, below, none, ?_⟩
    by_cases inside : l ≤ m'
    · obtain ⟨s, read⟩ := readAt_inside stabs (i := m') (by omega) (by omega)
      right
      exact ⟨s, read, by simpa [inside, read] using stopped⟩
    · omega
  · rintro m' ⟨above, below, none⟩
    by_cases inside : l ≤ m'
    · obtain ⟨s, read⟩ := readAt_inside stabs (i := m') (by omega) (by omega)
      by_cases same : s.type = type
      · left
        -- the guard fails at a stab of the type
        simp [inside, read, same]
      · right
        refine ⟨by simp [inside, read, same], m' - 1, rfl, ⟨by omega, by omega, ?_⟩, by omega⟩
        intro i past under
        by_cases here : i = m'
        · simp [here, stabKey, read, same]
        · exact none i (by omega) under
    · left
      simp [inside]

/-- What one turn of the search does: nothing of the type in `[l, trueM]`, or a nearest
stab `m` of the type whose address lies below, above or exactly at `addr`. -/
theorem probe_cases (stabs : List Stab) (type : Int) (v : SearchVars) (low : 0 ≤ v.l)
    (open_ : v.l ≤ v.r) (high : v.r < stabs.length) :
    ∃ t, t = (v.l + v.r) / 2 ∧ v.l ≤ t ∧ t ≤ v.r ∧
      ((v.probe stabs type = .ok { v with l := t + 1 } ∧
          ∀ i, v.l ≤ i → i ≤ t → stabKey stabs type i = none) ∨
        ∃ m a, v.l ≤ m ∧ m ≤ t ∧ stabKey stabs type m = some a ∧
          (∀ i, m < i → i ≤ t → stabKey stabs type i = none) ∧
          ((a < v.addr.toNat ∧ v.probe stabs type =
              .ok { v with anyMatches := true, regionLeft := m, l := t + 1 }) ∨
            (v.addr.toNat < a ∧ v.probe stabs type =
              .ok { v with anyMatches := true, regionRight := m - 1, r := m - 1 }) ∨
            (a = v.addr.toNat ∧ v.probe stabs type =
              .ok { v with anyMatches := true, regionLeft := m, l := m,
                           addr := v.addr + 1 }))) := by
  -- the division truncates, and both indices are nonnegative
  have middle : (v.l + v.r).tdiv 2 = (v.l + v.r) / 2 :=
    Int.tdiv_eq_ediv_of_nonneg (by omega)
  obtain ⟨m, slid, above, below, none, stop⟩ :=
    slideLeft_total stabs type (l := v.l) (m := (v.l + v.r) / 2) low (by omega) (by omega)
  refine ⟨(v.l + v.r) / 2, rfl, by omega, by omega, ?_⟩
  -- either the slide ran below `l`, or it stopped at a stab of the type
  by_cases missed : m < v.l
  · left
    refine ⟨by simp [SearchVars.probe, middle, slid, missed], fun i past under => ?_⟩
    exact none i (by omega) under
  right
  obtain ⟨s, read, same⟩ : ∃ s, readAt stabs m = .ok s ∧ s.type = type := by
    rcases stop with outside | here
    · omega
    · exact here
  refine ⟨m, s.nValue.toNat, by omega, below, stabKey_eq_some_iff.mpr ⟨s, read, same, rfl⟩,
    none, ?_⟩
  simp only [SearchVars.probe, middle, slid, Exec.ok_bind, missed, if_false, read,
    Exec.pure_eq_ok, UInt32.lt_iff_toNat_lt, gt_iff_lt]
  -- the three branches compare the address of that stab
  rcases Nat.lt_trichotomy s.nValue.toNat v.addr.toNat with smaller | equal | larger
  · left
    simp [smaller]
  · right; right
    simp [equal]
  · right; left
    have notSmaller : ¬s.nValue.toNat < v.addr.toNat := by omega
    simp [larger, notSmaller]

/-- The same as a case analysis on the variables after the turn. -/
theorem turn_cases {stabs : List Stab} {type : Int} {v v' : SearchVars}
    (turn : v.probe stabs type = .ok v') (low : 0 ≤ v.l) (open_ : v.l ≤ v.r)
    (high : v.r < stabs.length) :
    ∃ t, t = (v.l + v.r) / 2 ∧ v.l ≤ t ∧ t ≤ v.r ∧
      ((v' = { v with l := t + 1 } ∧ ∀ i, v.l ≤ i → i ≤ t → stabKey stabs type i = none) ∨
        ∃ m a, v.l ≤ m ∧ m ≤ t ∧ stabKey stabs type m = some a ∧
          (∀ i, m < i → i ≤ t → stabKey stabs type i = none) ∧
          ((a < v.addr.toNat ∧
              v' = { v with anyMatches := true, regionLeft := m, l := t + 1 }) ∨
            (v.addr.toNat < a ∧
              v' = { v with anyMatches := true, regionRight := m - 1, r := m - 1 }) ∨
            (a = v.addr.toNat ∧
              v' = { v with anyMatches := true, regionLeft := m, l := m,
                            addr := v.addr + 1 }))) := by
  obtain ⟨t, middle, above, below, outcome⟩ := probe_cases stabs type v low open_ high
  simp only [turn, Except.ok.injEq] at outcome
  exact ⟨t, middle, above, below, outcome⟩

/-! ### Termination on any table -/

/-- An exact hit need not shrink the open interval, but it can happen only once at its left
edge, since it moves the address. -/
def SearchVars.variant (stabs : List Stab) (type : Int) (v : SearchVars) : Nat :=
  2 * (v.r - v.l + 1).toNat + if stabKey stabs type v.l = some v.addr.toNat then 1 else 0

/-- `addr++`, which comes back to 0 after the last address. -/
theorem addr_succ (addr : UInt32) :
    (addr + 1).toNat = if addr.toNat = 4294967295 then 0 else addr.toNat + 1 := by
  have bound := addr.toNat_lt
  rw [UInt32.toNat_add, UInt32.toNat_one]
  split <;> omega

theorem addr_succ_of_lt {addr : UInt32} (small : addr.toNat < 4294967295) :
    (addr + 1).toNat = addr.toNat + 1 := by
  rw [addr_succ, if_neg (by omega)]

theorem addr_succ_ne (addr : UInt32) : (addr + 1).toNat ≠ addr.toNat := by
  rw [addr_succ]
  split <;> omega

theorem probe_variant (stabs : List Stab) (type : Int) (v v' : SearchVars) (low : 0 ≤ v.l)
    (open_ : v.l ≤ v.r) (high : v.r < stabs.length) (turn : v.probe stabs type = .ok v') :
    v'.variant stabs type < v.variant stabs type := by
  obtain ⟨t, _, above, below, ⟨rfl, _⟩ | ⟨m, a, left, right, here, _, outcome⟩⟩ :=
    turn_cases turn low open_ high
  · -- the range has lost its left half
    simp only [SearchVars.variant]
    split <;> split <;> omega
  rcases outcome with ⟨_, rfl⟩ | ⟨_, rfl⟩ | ⟨exact_, rfl⟩
  · simp only [SearchVars.variant]
    split <;> split <;> omega
  · simp only [SearchVars.variant]
    split <;> omega
  · simp only [SearchVars.variant]
    -- an exact hit may keep the range, but not the address that it hit
    have moved := addr_succ_ne v.addr
    have missed : ¬stabKey stabs type m = some (v.addr + 1).toNat := by
      rw [here, Option.some.injEq]
      omega
    rw [if_neg missed]
    by_cases edge : m = v.l
    · subst edge
      rw [if_pos (by rw [here, exact_])]
      omega
    · omega

/-- The search loop ends on any table, and keeps whatever a turn keeps. -/
theorem search_total (stabs : List Stab) (type : Int) (inv : SearchVars → Prop)
    (range : ∀ v, inv v → 0 ≤ v.l ∧ v.r < stabs.length)
    (kept : ∀ v v', inv v → v.l ≤ v.r → v.probe stabs type = .ok v' → inv v')
    (v : SearchVars) (initial : inv v) :
    ∃ v', v.search stabs type = .ok v' ∧ inv v' ∧ v'.r < v'.l := by
  have ended := whileLoop_total (fun v => pure (decide (v.l ≤ v.r)))
    (SearchVars.probe stabs type) inv (SearchVars.variant stabs type)
    ?_ (2 * (v.r - v.l + 1).toNat + 2) v initial ?_
  · obtain ⟨v', returned, final, stopped⟩ := ended
    exact ⟨v', returned, final, by simpa using stopped⟩
  · intro v here
    obtain ⟨low, high⟩ := range v here
    by_cases open_ : v.l ≤ v.r
    · right
      -- a turn always returns: this is `probe_cases` without its facts
      have turn : ∃ v', v.probe stabs type = .ok v' := by
        obtain ⟨t, _, _, _, ⟨skipped, _⟩ | ⟨m, a, _, _, _, _, outcome⟩⟩ :=
          probe_cases stabs type v low open_ high
        · exact ⟨_, skipped⟩
        · rcases outcome with ⟨_, returned⟩ | ⟨_, returned⟩ | ⟨_, returned⟩ <;>
            exact ⟨_, returned⟩
      obtain ⟨v', returned⟩ := turn
      exact ⟨by simp [open_], v', returned, kept v v' here open_ returned,
        probe_variant stabs type v v' low open_ high returned⟩
    · left
      simp [open_]
  · simp only [SearchVars.variant]
    split <;> omega

/-! ### The bracket on an ascending table -/

/-- What the search loop keeps while it looks for the address `a` in `[L, R]`. After an
exact hit it goes on looking for `a + 1`. -/
structure Searching (stabs : List Stab) (type L R : Int) (a : Nat) (v : SearchVars) : Prop where
  bracket : Bracket (stabKey stabs type) L R a v.l v.r
  right : v.regionRight = v.r
  leftIn : L ≤ v.regionLeft ∧ v.regionLeft ≤ R
  left : v.regionLeft = L ∨ ∃ b, stabKey stabs type v.regionLeft = some b ∧ b ≤ a
  addr : v.addr.toNat = a ∨
    (v.addr.toNat = a + 1 ∧ ∃ m, L ≤ m ∧ m ≤ R ∧ stabKey stabs type m = some a)
  any : v.anyMatches = false →
    v.r = R ∧ v.regionLeft = L ∧ ∀ i, L ≤ i → i < v.l → stabKey stabs type i = none

variable {stabs : List Stab} {type L R : Int} {a : Nat}

theorem Searching.start {addr : UInt32} (range : L ≤ R) :
    Searching stabs type L R addr.toNat
      { l := L, r := R, regionLeft := L, regionRight := R, anyMatches := false, addr } where
  bracket := Bracket.start range
  right := rfl
  leftIn := ⟨by simp, by simpa using range⟩
  left := Or.inl rfl
  addr := Or.inl rfl
  any := fun _ => ⟨rfl, rfl, fun i _ _ => by simp at *; omega⟩

/-- After an exact hit, no stab of the type that is still searched lies at `a + 1`. -/
def SearchVars.Clear (stabs : List Stab) (type : Int) (a : Nat) (v : SearchVars) : Prop :=
  v.addr.toNat = a + 1 → ∀ i, v.l ≤ i → i ≤ v.r → stabKey stabs type i ≠ some (a + 1)

/-- A key that is compared with the address being looked for is thereby compared with `a`. -/
theorem Searching.compare {v : SearchVars} (searching : Searching stabs type L R a v)
    (clear : v.Clear stabs type a) {m : Int} {b : Nat} (low : v.l ≤ m) (high : m ≤ v.r)
    (here : stabKey stabs type m = some b) :
    (b < v.addr.toNat → b ≤ a) ∧ (v.addr.toNat < b → a < b) ∧
      (b = v.addr.toNat → b = a ∧ v.addr.toNat = a) := by
  rcases searching.addr with same | ⟨next, _⟩
  · exact ⟨by omega, by omega, by omega⟩
  · -- after a hit the address is `a + 1`, which no stab of the type has
    refine ⟨by omega, by omega, fun exact_ => ?_⟩
    have none := clear next m low high
    rw [here, exact_, next] at none
    exact absurd rfl none

/-- If there is a stab of the type exactly at `a`, then `a` is not the last address. -/
def WrapFree (stabs : List Stab) (type L R : Int) (a : Nat) : Prop :=
  ∀ i, L ≤ i → i ≤ R → stabKey stabs type i = some a → a < 4294967295

theorem wrapFree_of_lt (small : a < 4294967295) : WrapFree stabs type L R a := fun _ _ _ _ => small

theorem Searching.step (ascending : Ascending (stabKey stabs type) L R)
    (wrapFree : WrapFree stabs type L R a)
    (low : 0 ≤ L) (high : R < stabs.length) (v v' : SearchVars)
    (searching : Searching stabs type L R a v) (clear : v.Clear stabs type a)
    (open_ : v.l ≤ v.r) (turn : v.probe stabs type = .ok v') :
    Searching stabs type L R a v' := by
  have left_in := searching.bracket.left_in
  have right_in := searching.bracket.right_in
  obtain ⟨t, _, above, below, ⟨rfl, none⟩ | ⟨m, b, past, under, here, none, outcome⟩⟩ :=
    turn_cases turn (by omega) open_ (by omega)
  · -- nothing of the type was skipped, so what was clear stays clear
    refine { searching with bracket := searching.bracket.skip above below none, any := ?_ }
    intro fresh
    obtain ⟨last, first, clear⟩ := searching.any fresh
    refine ⟨last, first, fun i low high => ?_⟩
    by_cases old : i < v.l
    · exact clear i low old
    · exact none i (by omega) (by simp at high; omega)
  -- the outcome speaks of the address that is looked for, the bracket of `a`
  obtain ⟨smaller, larger, equal⟩ := searching.compare clear past (by omega) here
  rcases outcome with ⟨less, rfl⟩ | ⟨greater, rfl⟩ | ⟨exact_, rfl⟩
  · exact
      { bracket := searching.bracket.raise ascending past under below here (smaller less) none
        right := searching.right
        leftIn := ⟨by simp; omega, by simp; omega⟩
        left := Or.inr ⟨b, here, smaller less⟩
        addr := searching.addr
        any := by simp }
  · exact
      { searching with
        bracket := searching.bracket.lower ascending past (by omega) here (larger greater)
        right := rfl
        any := by simp }
  · obtain ⟨same, target⟩ := equal exact_
    have inside : m ≤ v.r := by omega
    have small := wrapFree m (by omega) (by omega) (by rw [here, same])
    exact
      { bracket := searching.bracket.anchor ascending past inside here (by omega)
        right := searching.right
        leftIn := ⟨by simp; omega, by simp; omega⟩
        left := Or.inr ⟨b, here, by omega⟩
        addr := by
          right
          refine ⟨?_, m, by omega, by omega, by rw [here, same]⟩
          dsimp only
          rw [addr_succ_of_lt (by omega), target]
        any := by simp }

/-- No two stabs of the type in `[L, R]` lie at exactly `a` and `a + 1`. -/
def Apart (stabs : List Stab) (type L R : Int) (a : Nat) : Prop :=
  ∀ i j, L ≤ i → i ≤ R → L ≤ j → j ≤ R →
    stabKey stabs type i = some a → stabKey stabs type j ≠ some (a + 1)

theorem Searching.clear {v : SearchVars} (searching : Searching stabs type L R a v)
    (apart : Apart stabs type L R a) : v.Clear stabs type a := by
  intro next i low high
  have left_in := searching.bracket.left_in
  have right_in := searching.bracket.right_in
  rcases searching.addr with same | ⟨_, hit, hitLow, hitHigh, hitKey⟩
  · omega
  · exact apart hit i hitLow hitHigh (by omega) (by omega) hitKey

/-- When the loop has ended, and there is a stab of the type at or below the address,
`stab_binsearch` returns the last such stab and the index before the next one. -/
theorem Searching.enclosed {addr : UInt32} {v : SearchVars} (low : 0 ≤ L)
    (high : R < stabs.length) (final : Searching stabs type L R addr.toNat v) (empty : v.r < v.l)
    (searched : SearchVars.search stabs type
      { l := L, r := R, regionLeft := L, regionRight := R, anyMatches := false, addr } = .ok v)
    (present : ∃ i b, L ≤ i ∧ i ≤ R ∧ stabKey stabs type i = some b ∧ b ≤ addr.toNat) :
    ∃ left right, stabBinsearch stabs L R type addr = .ok (left, right) ∧
      Enclosed (stabKey stabs type) L R addr.toNat left right := by
  obtain ⟨e, b, eLow, eHigh, eKey, eSmall⟩ := present
  have right_in := final.bracket.right_in
  -- a stab at or below the address is never to the right of the bracket
  have before : ∀ i c, i ≤ R → stabKey stabs type i = some c → c ≤ addr.toNat → i ≤ v.r := by
    intro i c inside key little
    by_contra after
    have := final.bracket.above i c (by omega) inside key
    omega
  have eBefore := before e b eHigh eKey eSmall
  -- so the loop cannot have ended without a match
  have matched : v.anyMatches = true := by
    by_contra fresh
    obtain ⟨_, _, clear⟩ := final.any (by simpa using fresh)
    rw [clear e eLow (by omega)] at eKey
    cases eKey
  -- and the left result has stayed inside what was searched
  have floor : v.regionLeft ≤ v.r := by
    rcases final.left with edge | ⟨c, key, little⟩
    · omega
    · exact before _ c final.leftIn.2 key little
  obtain ⟨leftLow, leftHigh⟩ := final.leftIn
  obtain ⟨left, slid, above, below, none, stop⟩ := slideLeft_total stabs type
    (l := v.regionLeft + 1) (m := v.r) (by omega) (by omega) (by omega)
  refine ⟨left, v.r, ?_, final.bracket.enclosed empty (by omega) below ?_ none⟩
  · simp [stabBinsearch, searched, matched, final.right, slid]
  rcases stop with edge | ⟨s, read, same⟩
  · -- the slide ran down to *region_left, which is of the type or the edge of the range
    have bottom : left = v.regionLeft := by omega
    rcases final.left with first | ⟨c, key, _⟩
    · have only : e = left := by
        by_contra other
        rw [none e (by omega) eBefore] at eKey
        cases eKey
      rw [← only, eKey]
      simp
    · rw [bottom, key]
      simp
  · rw [stabKey_eq_some_iff.mpr ⟨s, read, same, rfl⟩]
    simp

/-- On an ascending range that has a stab of the type at or below the address, no two of them
exactly at the address and after it, `stab_binsearch` returns the last such stab and the index
before the next one. -/
theorem stabBinsearch_enclosed {addr : UInt32} (low : 0 ≤ L) (range : L ≤ R)
    (high : R < stabs.length) (ascending : Ascending (stabKey stabs type) L R)
    (apart : Apart stabs type L R addr.toNat) (wrapFree : WrapFree stabs type L R addr.toNat)
    (present : ∃ i b, L ≤ i ∧ i ≤ R ∧ stabKey stabs type i = some b ∧ b ≤ addr.toNat) :
    ∃ left right, stabBinsearch stabs L R type addr = .ok (left, right) ∧
      Enclosed (stabKey stabs type) L R addr.toNat left right := by
  obtain ⟨v, searched, final, empty⟩ := search_total stabs type
    (Searching stabs type L R addr.toNat)
    (fun v here => ⟨by have := here.bracket.left_in; omega,
      by have := here.bracket.right_in; omega⟩)
    (fun v v' searching => searching.step ascending wrapFree low high v v' (searching.clear apart))
    _ (@Searching.start stabs type L R addr range)
  exact final.enclosed low high empty searched present

end Jos
