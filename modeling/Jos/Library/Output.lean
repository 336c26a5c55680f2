import Jos.Library.Exec

/-!
# Output through a callback

A printing function takes a callback and the value that the callback works on. What it emits
is the list of characters in `putAll`, whatever the callback does with them; `record` is the
callback that only keeps them.
-/
namespace Library

variable {σ : Type}

abbrev Putch (σ : Type) := Int → σ → Exec σ

/-- Pass the characters to the callback in order. -/
def putAll (putch : Putch σ) : List Int → σ → Exec σ
  | [], d => pure d
  | c :: out, d => do
    let d ← putch c d
    putAll putch out d

/-- The callback that keeps what it is given. -/
def record : Putch (List Int) := fun c out => .ok (out ++ [c])

@[simp] theorem putAll_nil (putch : Putch σ) (d : σ) : putAll putch [] d = .ok d := rfl

theorem putAll_cons (putch : Putch σ) (c : Int) (out : List Int) (d : σ) :
    putAll putch (c :: out) d = (putch c d >>= putAll putch out) := rfl

@[simp] theorem putAll_singleton (putch : Putch σ) (c : Int) : putAll putch [c] = putch c := by
  funext d
  rw [putAll_cons]
  cases putch c d <;> rfl

theorem putAll_append (putch : Putch σ) (out more : List Int) :
    putAll putch (out ++ more) = fun d => putAll putch out d >>= putAll putch more := by
  funext d
  induction out generalizing d with
  | nil => rfl
  | cons c out ih =>
    rw [List.cons_append, putAll_cons, putAll_cons, bind_assoc]
    exact bind_congr ih

@[simp] theorem putAll_record (out written : List Int) :
    putAll record out written = .ok (written ++ out) := by
  induction out generalizing written with
  | nil => simp
  | cons c out ih => simp [putAll_cons, record, ih]

end Library
