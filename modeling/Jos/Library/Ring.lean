import Mathlib.Logic.Function.Basic
import Mathlib.Data.List.Basic

/-!
# Circular buffers without a count

A ring of `N` cells is two indices into a buffer. Equal indices mean empty, so a ring that
takes its `N`th unread element looks empty again; `contents_pushes` says exactly what is
left after any number of pushes.
-/
namespace Library

/-- A circular buffer whose indices are in range. -/
structure Ring (α : Type) (N : Nat) where
  buf : Nat → α
  rpos : Nat
  wpos : Nat
  rpos_lt : rpos < N
  wpos_lt : wpos < N

namespace Ring

variable {α : Type} {N : Nat}

/-- The index after `i`, wrapping at the end. -/
def next (N i : Nat) : Nat := if i + 1 = N then 0 else i + 1

theorem next_lt {i : Nat} (inside : i < N) : next N i < N := by
  unfold next
  split <;> omega

def push (r : Ring α N) (x : α) : Ring α N where
  buf := Function.update r.buf r.wpos x
  rpos := r.rpos
  wpos := next N r.wpos
  rpos_lt := r.rpos_lt
  wpos_lt := next_lt r.wpos_lt

def pop (r : Ring α N) : Ring α N where
  buf := r.buf
  rpos := next N r.rpos
  wpos := r.wpos
  rpos_lt := next_lt r.rpos_lt
  wpos_lt := r.wpos_lt

/-- The index `k` cells after `start`. -/
def slot (N start k : Nat) : Nat := if start + k < N then start + k else start + k - N

/-- The number of unread elements. -/
def used (r : Ring α N) : Nat :=
  if r.rpos ≤ r.wpos then r.wpos - r.rpos else r.wpos + N - r.rpos

/-- The unread elements, oldest first. -/
def contents (r : Ring α N) : List α :=
  (List.range r.used).map fun k => r.buf (slot N r.rpos k)

theorem used_lt (r : Ring α N) : r.used < N := by
  have := r.rpos_lt
  have := r.wpos_lt
  unfold used
  split <;> omega

@[simp] theorem length_contents (r : Ring α N) : r.contents.length = r.used := by
  simp [contents]

theorem used_eq_zero_iff (r : Ring α N) : r.used = 0 ↔ r.rpos = r.wpos := by
  have := r.rpos_lt
  have := r.wpos_lt
  unfold used
  split <;> omega

theorem contents_eq_nil_iff (r : Ring α N) : r.contents = [] ↔ r.rpos = r.wpos := by
  rw [← List.length_eq_zero_iff, length_contents, used_eq_zero_iff]

theorem used_push (r : Ring α N) (x : α) :
    (r.push x).used = if r.used + 1 = N then 0 else r.used + 1 := by
  have := r.rpos_lt
  have := r.wpos_lt
  simp only [used, push, next]
  split_ifs <;> omega

/-- The cell written by a push is none of those that hold an unread element. -/
theorem slot_ne_wpos (r : Ring α N) {k : Nat} (unread : k < r.used) :
    slot N r.rpos k ≠ r.wpos := by
  have := r.rpos_lt
  have := r.wpos_lt
  unfold used at unread
  unfold slot
  split at unread <;> split <;> omega

theorem slot_used (r : Ring α N) : slot N r.rpos r.used = r.wpos := by
  have := r.rpos_lt
  have := r.wpos_lt
  unfold slot used
  split <;> split <;> omega

/-- A push appends, unless it makes the ring look empty. -/
theorem contents_push (r : Ring α N) (x : α) :
    (r.push x).contents = if r.used + 1 = N then [] else r.contents ++ [x] := by
  unfold contents
  rw [used_push]
  split
  · rfl
  · rw [List.range_succ, List.map_append, List.map_singleton]
    -- the unread cells keep their elements, and the new cell comes after them
    have kept : ∀ k ∈ List.range r.used,
        (r.push x).buf (slot N r.rpos k) = r.buf (slot N r.rpos k) := by
      intro k member
      exact Function.update_of_ne (r.slot_ne_wpos (List.mem_range.mp member)) _ _
    have last : (r.push x).buf (slot N r.rpos r.used) = x := by
      rw [slot_used]
      exact Function.update_self _ _ _
    rw [show (r.push x).rpos = r.rpos from rfl, List.map_congr_left kept, last]

/-- After any number of pushes the ring holds what the last full turn left unread. -/
theorem contents_pushes (r : Ring α N) (xs : List α) :
    (xs.foldl push r).contents =
      (r.contents ++ xs).drop (N * ((r.used + xs.length) / N)) := by
  induction xs generalizing r with
  | nil => simp [Nat.div_eq_of_lt r.used_lt]
  | cons x xs ih =>
    rw [List.foldl_cons, ih, used_push, contents_push]
    have positive : 0 < N := by have := r.used_lt; omega
    split
    -- this push makes the ring look empty: a full turn is lost
    next full =>
      have turns : (r.used + (x :: xs).length) / N = (0 + xs.length) / N + 1 := by
        rw [← Nat.add_div_right _ positive, List.length_cons]
        congr 1
        omega
      have split_ : N * ((0 + xs.length) / N + 1) =
          (r.contents ++ [x]).length + N * ((0 + xs.length) / N) := by
        rw [Nat.mul_add, Nat.mul_one, List.length_append, length_contents, List.length_singleton]
        omega
      rw [turns, split_, List.append_cons r.contents x xs, List.drop_length_add_append,
        List.nil_append]
    next room =>
      rw [List.append_assoc, List.singleton_append, List.length_cons]
      congr 3
      omega

/-- Without a full turn nothing is lost. -/
theorem contents_pushes_of_lt (r : Ring α N) (xs : List α) (room : r.used + xs.length < N) :
    (xs.foldl push r).contents = r.contents ++ xs := by
  rw [contents_pushes, Nat.div_eq_of_lt room, Nat.mul_zero, List.drop_zero]

/-- A pop removes the oldest unread element. -/
theorem contents_pop (r : Ring α N) (unread : r.rpos ≠ r.wpos) :
    r.contents = r.buf r.rpos :: r.pop.contents := by
  have rpos_lt := r.rpos_lt
  have wpos_lt := r.wpos_lt
  have more : r.used = r.pop.used + 1 := by
    simp only [used, pop, next]
    split_ifs <;> omega
  have first : slot N r.rpos 0 = r.rpos := by simp [slot, rpos_lt]
  unfold contents
  rw [more, List.range_succ_eq_map, List.map_cons, first, List.map_map]
  congr 1
  -- counted from the next cell, every other element is one closer
  apply List.map_congr_left
  intro k member
  have inside := r.pop.used_lt
  have bound := List.mem_range.mp member
  simp only [Function.comp, pop, slot, next]
  congr 1
  split_ifs <;> omega

end Ring

end Library
