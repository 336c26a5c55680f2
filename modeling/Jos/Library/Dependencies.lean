import Mathlib.Data.List.Induction
import Mathlib.Data.List.Nodup

/-!
# Actions that need others

Each action may need an earlier one. Asked for an action, `visit` first runs what it needs, and
nothing twice: a flag is set before the action runs. What runs is the chain of the action, without
what has run.
-/
namespace Library

structure Dependencies where
  parent : Nat → Option Nat
  earlier : ∀ {i p : Nat}, parent i = some p → p < i

namespace Dependencies

variable (d : Dependencies)

/-- What an action needs, and the action. -/
def chain (i : Nat) : List Nat :=
  match _needs : d.parent i with
  | none => [i]
  | some p => chain p ++ [i]
termination_by i
decreasing_by exact d.earlier _needs

/-- What is wanted, each after what it needs, and everything once. -/
def order (wanted : List Nat) : List Nat :=
  (wanted.flatMap d.chain).eraseDups

section Visit

variable {σ ε : Type} (act : σ → Nat → Except ε σ)

/-- `complete` are the actions whose flag is set. -/
def visit (i : Nat) (complete : List Nat) (s : σ) : Except ε (List Nat × σ) :=
  if i ∈ complete then .ok (complete, s)
  else
    let needed : Except ε (List Nat × σ) := match _needs : d.parent i with
      | none => .ok (i :: complete, s)
      | some p => visit p (i :: complete) s
    needed.bind fun (complete, s) => (act s i).map (complete, ·)
termination_by i
decreasing_by exact d.earlier _needs

end Visit

variable {d}

theorem chain_root {i : Nat} (root : d.parent i = none) : d.chain i = [i] := by
  rw [chain]
  split
  · rfl
  · next p needs => rw [root] at needs; cases needs

theorem chain_needs {i p : Nat} (needs : d.parent i = some p) : d.chain i = d.chain p ++ [i] := by
  rw [chain]
  split
  · next root => rw [root] at needs; cases needs
  · next q needs' =>
    rw [needs] at needs'
    obtain rfl := Option.some.inj needs'
    rfl

theorem self_mem_chain (i : Nat) : i ∈ d.chain i := by
  cases needs : d.parent i with
  | none => simp [chain_root needs]
  | some p => simp [chain_needs needs]

theorem chain_le {i j : Nat} (member : j ∈ d.chain i) : j ≤ i := by
  induction i using Nat.strongRecOn with
  | _ i ih =>
    cases needs : d.parent i with
    | none =>
      rw [chain_root needs, List.mem_singleton] at member
      exact Nat.le_of_eq member
    | some p =>
      rw [chain_needs needs, List.mem_append, List.mem_singleton] at member
      have less := d.earlier needs
      rcases member with above | rfl
      · exact Nat.le_of_lt (Nat.lt_of_le_of_lt (ih p less above) less)
      · exact Nat.le_refl j

theorem chain_nodup (i : Nat) : (d.chain i).Nodup := by
  induction i using Nat.strongRecOn with
  | _ i ih =>
    cases needs : d.parent i with
    | none => simp [chain_root needs]
    | some p =>
      have less := d.earlier needs
      rw [chain_needs needs, List.nodup_append']
      refine ⟨ih p less, List.nodup_singleton i, fun j above self => ?_⟩
      have := chain_le above
      rw [List.mem_singleton] at self
      omega

/-- With an action, what it needs. -/
def Closed (d : Dependencies) (done : List Nat) : Prop :=
  ∀ i ∈ done, ∀ p, d.parent i = some p → p ∈ done

theorem Closed.chain {done : List Nat} (closed : Closed d done) {i : Nat} (ran : i ∈ done) :
    ∀ j ∈ d.chain i, j ∈ done := by
  induction i using Nat.strongRecOn with
  | _ i ih =>
    intro j member
    cases needs : d.parent i with
    | none =>
      rw [chain_root needs, List.mem_singleton] at member
      rwa [member]
    | some p =>
      rw [chain_needs needs, List.mem_append, List.mem_singleton] at member
      rcases member with above | rfl
      · exact ih p (d.earlier needs) (closed i ran p needs) j above
      · exact ran

theorem chain_closed (i : Nat) : Closed d (d.chain i) := by
  induction i using Nat.strongRecOn with
  | _ i ih =>
    intro j member p needs
    cases above : d.parent i with
    | none =>
      rw [chain_root above, List.mem_singleton] at member
      rw [member, above] at needs
      cases needs
    | some q =>
      rw [chain_needs above, List.mem_append] at member ⊢
      rcases member with member | self
      · exact .inl (ih q (d.earlier above) j member p needs)
      · rw [List.mem_singleton] at self
        rw [self, above] at needs
        obtain rfl := Option.some.inj needs
        exact .inl (self_mem_chain q)

theorem Closed.append {a b : List Nat} (left : Closed d a) (right : Closed d b) :
    Closed d (a ++ b) := by
  intro i member p needs
  rcases List.mem_append.mp member with member | member
  · exact List.mem_append_left b (left i member p needs)
  · exact List.mem_append_right a (right i member p needs)

theorem removeAll_eq_nil {xs ys : List Nat} (sub : ∀ x ∈ xs, x ∈ ys) : xs.removeAll ys = [] := by
  rw [List.removeAll, List.filter_eq_nil_iff]
  intro x member
  simp [sub x member]

theorem removeAll_append (xs ys done : List Nat) :
    (xs ++ ys).removeAll done = xs.removeAll done ++ ys.removeAll done :=
  List.filter_append xs ys

/-- A visit runs the chain, without what has run. -/
theorem visit_eq {σ ε : Type} (act : σ → Nat → Except ε σ) (i : Nat) {done : List Nat}
    (closed : Closed d done) (complete : List Nat)
    (agree : ∀ j ∈ d.chain i, j ∈ complete ↔ j ∈ done) :
    ∃ complete', (∀ j, j ∈ complete' ↔ j ∈ complete ∨ j ∈ d.chain i) ∧
      ∀ s, d.visit act i complete s =
        (((d.chain i).removeAll done).foldlM act s).map (complete', ·) := by
  induction i using Nat.strongRecOn generalizing complete with
  | _ i ih =>
    have here := agree i (self_mem_chain i)
    by_cases set : i ∈ complete
    · have all := closed.chain (here.mp set)
      refine ⟨complete, fun j => ?_, fun s => ?_⟩
      · exact ⟨.inl, fun either => either.elim id fun member =>
          (agree j member).mpr (all j member)⟩
      · rw [visit, if_pos set, removeAll_eq_nil all]
        rfl
    · have fresh : i ∉ done := fun ran => set (here.mpr ran)
      have alone : [i].removeAll done = [i] := by simp [List.removeAll, fresh]
      cases needs : d.parent i with
      | none =>
        have just := chain_root needs
        refine ⟨i :: complete, fun j => by rw [just]; simp [or_comm], fun s => ?_⟩
        have first : [i].foldlM act s = act s i := bind_pure (act s i)
        rw [visit, if_neg set, just, alone, first]
        split
        · rfl
        · next p needs' => rw [needs] at needs'; cases needs'
      | some p =>
        have whole := chain_needs needs
        have less := d.earlier needs
        -- the flag of `i` is no flag of its chain above
        have agree' : ∀ j ∈ d.chain p, j ∈ i :: complete ↔ j ∈ done := by
          intro j above
          have other : j ≠ i := by
            have := chain_le above
            omega
          rw [List.mem_cons, or_iff_right other]
          exact agree j (by rw [whole]; exact List.mem_append_left _ above)
        obtain ⟨complete', member, run⟩ := ih p less (i :: complete) agree'
        refine ⟨complete', fun j => ?_, fun s => ?_⟩
        · rw [member, whole, List.mem_cons, List.mem_append, List.mem_singleton]
          tauto
        · rw [visit, if_neg set, whole, removeAll_append, alone, List.foldlM_append]
          split
          · next root => rw [needs] at root; cases root
          · next q needs' =>
            rw [needs] at needs'
            obtain rfl := Option.some.inj needs'
            rw [run s]
            cases ((d.chain p).removeAll done).foldlM act s with
            | error e => rfl
            | ok s' => exact congrArg (Except.map _) (bind_pure (act s' i)).symm

/-! ### The order -/

theorem eraseDups_nodup {xs : List Nat} (once : xs.Nodup) : xs.eraseDups = xs := by
  induction xs with
  | nil => rfl
  | cons x xs ih =>
    obtain ⟨other, once⟩ := List.nodup_cons.mp once
    have all : (xs.filter fun y => !y == x) = xs := by
      rw [List.filter_eq_self]
      rintro y member
      simpa using fun same : y = x => other (same ▸ member)
    rw [List.eraseDups_cons, all, ih once]

/-- What comes next is a chain, without what has come before. -/
theorem order_concat (wanted : List Nat) (i : Nat) :
    d.order (wanted ++ [i]) = d.order wanted ++ (d.chain i).removeAll (d.order wanted) := by
  have same : (d.chain i).removeAll (wanted.flatMap d.chain) =
      (d.chain i).removeAll (d.order wanted) := by
    refine List.filter_congr fun j _ => ?_
    rw [Bool.eq_iff_iff]
    simp [order]
  have once : ((d.chain i).removeAll (wanted.flatMap d.chain)).Nodup := (chain_nodup i).filter _
  rw [order, List.flatMap_append, List.eraseDups_append, List.flatMap_singleton,
    eraseDups_nodup once, same, order]

theorem order_front (wanted more : List Nat) : d.order wanted <+: d.order (wanted ++ more) := by
  rw [order, order, List.flatMap_append, List.eraseDups_append]
  exact List.prefix_append _ _

theorem mem_order {wanted : List Nat} {j : Nat} :
    j ∈ d.order wanted ↔ ∃ i ∈ wanted, j ∈ d.chain i := by
  simp [order]

theorem mem_order_concat {wanted : List Nat} {i j : Nat} :
    j ∈ d.order (wanted ++ [i]) ↔ j ∈ d.order wanted ∨ j ∈ d.chain i := by
  simp only [mem_order, List.mem_append, List.mem_singleton, or_and_right, exists_or,
    exists_eq_left]

theorem order_nodup (wanted : List Nat) : (d.order wanted).Nodup := by
  induction wanted using List.reverseRecOn with
  | nil => exact List.nodup_nil
  | append_singleton wanted i ih =>
    rw [order_concat, List.nodup_append']
    refine ⟨ih, (chain_nodup i).filter _, fun j before next => ?_⟩
    simp [List.removeAll, before] at next

theorem chain_prefix_closed {i : Nat} {part : List Nat} (front : part <+: d.chain i) :
    Closed d part := by
  induction i using Nat.strongRecOn generalizing part with
  | _ i ih =>
    have whole := chain_closed (d := d) i
    cases needs : d.parent i with
    | none =>
      rw [chain_root needs] at front whole
      have front : part <+: [] ++ [i] := front
      rcases List.prefix_concat_iff.mp front with rfl | front
      · exact whole
      · rw [List.prefix_nil.mp front]
        exact fun j member => absurd member List.not_mem_nil
    | some p =>
      rw [chain_needs needs] at front whole
      rcases List.prefix_concat_iff.mp front with rfl | front
      · exact whole
      · exact ih p (d.earlier needs) front

/-- Whenever it stops, what has run has run after what it needs. -/
theorem order_prefix_closed {wanted ran : List Nat} (part : ran <+: d.order wanted) :
    Closed d ran := by
  induction wanted using List.reverseRecOn generalizing ran with
  | nil =>
    rw [List.prefix_nil.mp part]
    exact fun i member => absurd member List.not_mem_nil
  | append_singleton wanted i ih =>
    rw [order_concat] at part
    rcases List.prefix_or_prefix_of_prefix part (List.prefix_append _ _) with before | ⟨next, rfl⟩
    · exact ih before
    · rw [List.prefix_append_right_inj, List.removeAll, List.prefix_filter_iff] at part
      obtain ⟨front, prefix', rfl⟩ := part
      intro j member p needs
      rcases List.mem_append.mp member with old | new
      · exact List.mem_append_left _ (ih List.prefix_rfl j old p needs)
      · have above := chain_prefix_closed prefix' j (List.mem_of_mem_filter new) p needs
        by_cases old : p ∈ d.order wanted
        · exact List.mem_append_left _ old
        · exact List.mem_append_right _ (List.mem_filter.mpr ⟨above, by simp [old]⟩)

/-- Everything is wanted, in the order in which it is there. -/
theorem order_range (n : Nat) : d.order (List.range n) = List.range n := by
  induction n with
  | zero => rfl
  | succ n ih =>
    have last : (d.chain n).removeAll (List.range n) = [n] := by
      cases needs : d.parent n with
      | none => simp [chain_root needs, List.removeAll]
      | some p =>
        have earlier : ∀ j ∈ d.chain p, j ∈ List.range n := by
          intro j member
          have := chain_le member
          have := d.earlier needs
          rw [List.mem_range]
          omega
        rw [chain_needs needs, removeAll_append, removeAll_eq_nil earlier]
        simp [List.removeAll]
    rw [List.range_succ, order_concat, ih, last]

end Dependencies

end Library
