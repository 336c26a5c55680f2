import Mathlib.Data.List.Basic

/-!
# Writes over a memory

A list of writes, each of which covers some of the addresses, leaves at an address what the
last write that covers it has put there.
-/
namespace Library

variable {α β ω : Type} (covers : ω → α → Bool) (value : ω → α → β)

def write (m : α → β) (w : ω) : α → β := fun a => if covers w a then value w a else m a

/-- The memory after the writes, in order. -/
def overlay (m : α → β) (ws : List ω) : α → β := ws.foldl (write covers value) m

variable {covers value}

theorem overlay_append (m : α → β) (ws vs : List ω) :
    overlay covers value m (ws ++ vs) = overlay covers value (overlay covers value m ws) vs :=
  List.foldl_append

/-- The last write that covers an address decides about it. -/
theorem overlay_find (m : α → β) (ws : List ω) (a : α) :
    overlay covers value m ws a =
      ((ws.reverse.find? (covers · a)).map (value · a)).getD (m a) := by
  induction ws generalizing m with
  | nil => rfl
  | cons w ws ih =>
    rw [overlay, List.foldl_cons, ← overlay, ih, List.reverse_cons, List.find?_append]
    cases ws.reverse.find? (covers · a) with
    | some t => rfl
    | none => cases covered : covers w a <;> simp [write, covered]

theorem overlay_outside (m : α → β) {ws : List ω} {a : α}
    (outside : ∀ w ∈ ws, covers w a = false) : overlay covers value m ws a = m a := by
  have none : ws.reverse.find? (covers · a) = none := by
    rw [List.find?_eq_none]
    intro w member
    simp [outside w (List.mem_reverse.mp member)]
  rw [overlay_find, none]
  rfl

/-- After a write that covers an address, only later ones matter there. -/
theorem overlay_after (m : α → β) (earlier later : List ω) {w : ω} {a : α}
    (covered : covers w a = true) :
    overlay covers value m (earlier ++ w :: later) a =
      ((later.reverse.find? (covers · a)).map (value · a)).getD (value w a) := by
  rw [overlay_append, overlay, List.foldl_cons, ← overlay, overlay_find, write, if_pos covered]

end Library
