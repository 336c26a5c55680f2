import Mathlib.Data.List.Basic

/-!
# Frames in a stream

What arrives in chunks is put behind what is left, and one frame after the other is taken from the
front until there is none. When a frame that has been found stays the same however the stream goes
on, the cuts between the chunks make no difference. The loop ends early with a frame that stops it,
and then leaves frames behind for the next chunk.
-/
namespace Library

variable {α β : Type}

/-- Takes the first frame of a buffer, and leaves what is behind it. -/
structure Framing (α β : Type) where
  next : List α → Option (β × List α)
  shorter : ∀ {s : List α} {b : β} {r : List α}, next s = some (b, r) → r.length < s.length
  stable : ∀ {s : List α} {b : β} {r : List α} (t : List α),
    next s = some (b, r) → next (s ++ t) = some (b, r ++ t)

/-- The frames that the loop has taken, and its buffer where it ends. -/
structure Drained (α β : Type) where
  frames : List β
  stopped : Bool
  rest : List α

namespace Framing

variable (f : Framing α β) (stop : β → Bool)

/-- The loop. -/
def drain (s : List α) : Drained α β :=
  match _found : f.next s with
  | none => ⟨[], false, s⟩
  | some (b, r) =>
    if stop b then ⟨[b], true, r⟩
    else
      let d := drain r
      { d with frames := b :: d.frames }
termination_by s.length
decreasing_by exact f.shorter _found

/-- The frames of a text that are complete. -/
def frames (s : List α) : List β := (f.drain (fun _ => false) s).frames

/-- What is behind the last of them. -/
def left (s : List α) : List α := (f.drain (fun _ => false) s).rest

/-- Up to the first that stops. -/
def upTo : List β → List β
  | [] => []
  | b :: bs => if stop b then [b] else b :: upTo bs

variable {f} {stop}

theorem drain_none {s : List α} (none : f.next s = none) : f.drain stop s = ⟨[], false, s⟩ := by
  rw [drain]
  split
  · rfl
  · next b r found => rw [none] at found; cases found

theorem drain_some {s r : List α} {b : β} (first : f.next s = some (b, r)) :
    f.drain stop s = if stop b then ⟨[b], true, r⟩
      else { f.drain stop r with frames := b :: (f.drain stop r).frames } := by
  rw [drain]
  split
  · next found => rw [first] at found; cases found
  · next b' r' found =>
    rw [first] at found
    obtain ⟨rfl, rfl⟩ := Prod.mk.inj (Option.some.inj found)
    rfl

/-- What is left has no frame. -/
theorem drain_rest {s : List α} (open' : (f.drain stop s).stopped = false) :
    f.next (f.drain stop s).rest = none := by
  induction h : s.length using Nat.strongRecOn generalizing s with
  | _ n ih =>
    cases first : f.next s with
    | none =>
      rw [drain_none first]
      exact first
    | some p =>
      obtain ⟨b, rest⟩ := p
      rw [drain_some first] at open' ⊢
      by_cases stopped : stop b
      · rw [if_pos stopped] at open'
        cases open'
      · rw [if_neg stopped] at open' ⊢
        exact ih rest.length (h ▸ f.shorter first) open' rfl

/-- More of the stream only adds to what is left. -/
theorem drain_append (s t : List α) :
    f.drain stop (s ++ t) =
      if (f.drain stop s).stopped then
        { f.drain stop s with rest := (f.drain stop s).rest ++ t }
      else
        { f.drain stop ((f.drain stop s).rest ++ t) with
          frames := (f.drain stop s).frames ++
            (f.drain stop ((f.drain stop s).rest ++ t)).frames } := by
  induction h : s.length using Nat.strongRecOn generalizing s with
  | _ n ih =>
    cases first : f.next s with
    | none => rw [drain_none first]; rfl
    | some p =>
      obtain ⟨b, rest⟩ := p
      have later := ih rest.length (h ▸ f.shorter first) rest rfl
      rw [drain_some first, drain_some (f.stable t first)]
      by_cases stopped : stop b
      · rw [if_pos stopped, if_pos stopped, if_pos rfl]
      · rw [if_neg stopped, if_neg stopped, later]
        split <;> rfl

theorem upTo_eq_self {bs : List β} (calm : bs.any stop = false) : upTo stop bs = bs := by
  induction bs with
  | nil => rfl
  | cons b bs ih =>
    rw [List.any_cons, Bool.or_eq_false_iff] at calm
    simp [upTo, calm.1, ih calm.2]

theorem filter_upTo (bs : List β) : (upTo stop bs).filter stop = (bs.filter stop).take 1 := by
  induction bs with
  | nil => rfl
  | cons b bs ih =>
    by_cases stopped : stop b
    · simp [upTo, stopped]
    · simp [upTo, stopped, ih]

variable (f) (stop)

/-- The loop that is stopped has seen what the other one sees, up to the first that stops. -/
theorem drain_stop (s : List α) :
    (f.drain stop s).frames = upTo stop (f.frames s) ∧
      (f.drain stop s).stopped = (f.frames s).any stop ∧
      ((f.drain stop s).stopped = false → (f.drain stop s).rest = f.left s) := by
  unfold frames left
  induction h : s.length using Nat.strongRecOn generalizing s with
  | _ n ih =>
    cases first : f.next s with
    | none =>
      rw [drain_none first, drain_none first]
      exact ⟨rfl, rfl, fun _ => rfl⟩
    | some p =>
      obtain ⟨b, rest⟩ := p
      obtain ⟨seen, stops, left⟩ := ih rest.length (h ▸ f.shorter first) rest rfl
      rw [drain_some first, drain_some first]
      by_cases stopped : stop b
      · simp [upTo, stopped]
      · simpa [upTo, stopped, seen, stops] using left

/-- The frames that a loop has taken, and those that it has left behind. -/
theorem drain_resume (s : List α) :
    f.frames s = (f.drain stop s).frames ++ f.frames (f.drain stop s).rest ∧
      f.left s = f.left (f.drain stop s).rest := by
  unfold frames left
  induction h : s.length using Nat.strongRecOn generalizing s with
  | _ n ih =>
    cases first : f.next s with
    | none => simp [drain_none first]
    | some p =>
      obtain ⟨b, rest⟩ := p
      obtain ⟨taken, behind⟩ := ih rest.length (h ▸ f.shorter first) rest rfl
      rw [drain_some first, drain_some first, if_neg (by simp)]
      by_cases stopped : stop b
      · rw [if_pos stopped]
        exact ⟨rfl, rfl⟩
      · rw [if_neg stopped]
        exact ⟨congrArg (b :: ·) taken, behind⟩

/-- A frame that stops the loop is its last one. -/
theorem drain_once (s : List α) :
    ((f.drain stop s).frames.filter stop).length =
      if (f.drain stop s).stopped then 1 else 0 := by
  obtain ⟨seen, stops, -⟩ := f.drain_stop stop s
  rw [seen, stops, filter_upTo, List.length_take]
  by_cases any : (f.frames s).any stop
  · obtain ⟨b, member, stopped⟩ := List.any_eq_true.mp any
    have some : b ∈ (f.frames s).filter stop := List.mem_filter.mpr ⟨member, stopped⟩
    have := List.length_pos_of_mem some
    rw [if_pos any]
    omega
  · have none : (f.frames s).filter stop = [] := by
      rw [List.filter_eq_nil_iff]
      simpa using any
    rw [if_neg any, none]
    rfl

variable {f}

theorem frames_none {s : List α} (none : f.next s = none) : f.frames s = [] ∧ f.left s = s := by
  rw [frames, left, drain_none none]
  exact ⟨rfl, rfl⟩

theorem frames_some {s r : List α} {b : β} (first : f.next s = some (b, r)) :
    f.frames s = b :: f.frames r ∧ f.left s = f.left r := by
  rw [frames, left, drain_some first]
  exact ⟨rfl, rfl⟩

theorem next_left (s : List α) : f.next (f.left s) = none := by
  refine drain_rest ?_
  rw [(f.drain_stop (fun _ => false) s).2.1]
  exact List.any_eq_false.mpr fun _ _ => Bool.false_ne_true

variable (f)

/-- The cuts between the chunks make no difference. -/
theorem frames_append (s t : List α) :
    f.frames (s ++ t) = f.frames s ++ f.frames (f.left s ++ t) ∧
      f.left (s ++ t) = f.left (f.left s ++ t) := by
  have open' : (f.drain (fun _ => false) s).stopped = false := by
    rw [(f.drain_stop (fun _ => false) s).2.1]
    exact List.any_eq_false.mpr fun _ _ => Bool.false_ne_true
  have whole := @drain_append α β f (fun _ => false) s t
  rw [if_neg (by simp [open'])] at whole
  constructor
  · exact congrArg Drained.frames whole
  · rw [left, whole]
    rfl

end Framing

end Library
