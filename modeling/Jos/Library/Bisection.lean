import Mathlib.Order.Defs.LinearOrder
import Mathlib.Tactic.Basic
import Mathlib.Tactic.Order

/-!
# Bisecting a table whose keys are sparse

A bisection of `[l, r]` looks at the key nearest to the middle on the left. It goes on to the
right of the middle when there is none, and to the left of that key when it is above what is
looked for.
-/
namespace Library

/-- There is no key from `l` to the middle of `[l, r]`. -/
def Skipped {κ : Type} (key : Int → Option κ) (l r : Int) : Prop :=
  ∀ i, l ≤ i → i ≤ (l + r) / 2 → key i = none

/-- The last index with a key from `l` to the middle of `[l, r]`. -/
structure Nearest {κ : Type} (key : Int → Option κ) (l r m : Int) (v : κ) : Prop where
  left : l ≤ m
  inside : m ≤ (l + r) / 2
  here : key m = some v
  none : ∀ i, m < i → i ≤ (l + r) / 2 → key i = none

section Nearest

variable {κ : Type} {key : Int → Option κ} {l r m : Int} {v : κ}

theorem Nearest.unique {m' : Int} {v' : κ} (nearest : Nearest key l r m v)
    (other : Nearest key l r m' v') : m = m' ∧ v = v' := by
  have same : m = m' := by
    rcases Int.lt_trichotomy m m' with before | same | after
    · have clear := nearest.none m' before other.inside
      rw [other.here] at clear
      cases clear
    · exact same
    · have clear := other.none m after nearest.inside
      rw [nearest.here] at clear
      cases clear
  subst same
  have values := nearest.here.symm.trans other.here
  exact ⟨rfl, Option.some.inj values⟩

theorem Nearest.not_skipped (nearest : Nearest key l r m v) : ¬Skipped key l r := by
  intro skipped
  have clear := skipped m nearest.left nearest.inside
  rw [nearest.here] at clear
  cases clear

theorem last_key (key : Int → Option κ) (l t : Int) :
    (∀ i, l ≤ i → i ≤ t → key i = none) ∨
      ∃ m v, l ≤ m ∧ m ≤ t ∧ key m = some v ∧ ∀ i, m < i → i ≤ t → key i = none := by
  induction width : (t - l + 1).toNat generalizing t with
  | zero => exact .inl fun i _ _ => by omega
  | succ width ih =>
    cases here : key t with
    | some v => exact .inr ⟨t, v, by omega, Int.le_refl t, here, fun i _ _ => by omega⟩
    | none =>
      -- the index `t` has no key, so what holds below it holds up to it
      have extend : ∀ i, i ≤ t → (i ≤ t - 1 → key i = none) → key i = none := by
        intro i inside below
        by_cases top : i = t
        · rw [top, here]
        · exact below (by omega)
      rcases ih (t - 1) (by omega) with clear | ⟨m, v, low, high, found, clear⟩
      · exact .inl fun i above below => extend i below (clear i above)
      · exact .inr ⟨m, v, low, by omega, found, fun i after below => extend i below (clear i after)⟩

theorem skipped_or_nearest (key : Int → Option κ) (l r : Int) :
    Skipped key l r ∨ ∃ m v, Nearest key l r m v := by
  rcases last_key key l ((l + r) / 2) with skipped | ⟨m, v, left, inside, here, none⟩
  · exact .inl skipped
  · exact .inr ⟨m, v, left, inside, here, none⟩

end Nearest

variable {κ : Type} [LinearOrder κ]

/-- Bisecting `[l, r]` for `a` meets no key but such as are above `a`. -/
inductive OnlyAbove (key : Int → Option κ) (a : κ) : Int → Int → Prop where
  | closed {l r : Int} : r < l → OnlyAbove key a l r
  | skip {l r : Int} : l ≤ r → Skipped key l r → OnlyAbove key a ((l + r) / 2 + 1) r →
      OnlyAbove key a l r
  | above {l r m : Int} {v : κ} : Nearest key l r m v → a < v → OnlyAbove key a l (m - 1) →
      OnlyAbove key a l r

namespace OnlyAbove

variable {key : Int → Option κ} {a v : κ} {l r m : Int}

theorem skip_inv (only : OnlyAbove key a l r) (open_ : l ≤ r) (skipped : Skipped key l r) :
    OnlyAbove key a ((l + r) / 2 + 1) r := by
  cases only with
  | closed empty => omega
  | skip _ _ rest => exact rest
  | above nearest => exact absurd skipped nearest.not_skipped

theorem above_inv (only : OnlyAbove key a l r) (nearest : Nearest key l r m v) :
    a < v ∧ OnlyAbove key a l (m - 1) := by
  cases only with
  | closed empty =>
    have := nearest.left
    have := nearest.inside
    omega
  | skip _ skipped _ => exact absurd skipped nearest.not_skipped
  | above other large rest =>
    obtain ⟨rfl, rfl⟩ := nearest.unique other
    exact ⟨large, rest⟩

/-- All keys of the range are above `a`. -/
theorem of_all (all : ∀ i v, l ≤ i → i ≤ r → key i = some v → a < v) : OnlyAbove key a l r := by
  induction width : (r - l + 1).toNat using Nat.strong_induction_on generalizing l r with
  | _ width ih =>
    by_cases open_ : l ≤ r
    · rcases skipped_or_nearest key l r with skipped | ⟨m, v, nearest⟩
      · exact .skip open_ skipped (ih _ (by omega) (fun i v low => all i v (by omega)) rfl)
      · have left := nearest.left
        have inside := nearest.inside
        exact .above nearest (all m v left (by omega) nearest.here)
          (ih _ (by omega) (fun i v low high => all i v low (by omega)) rfl)
    · exact .closed (by omega)

end OnlyAbove

end Library
