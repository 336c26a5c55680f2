import Mathlib.Logic.Function.Basic
import Mathlib.Data.Fin.Basic
import Mathlib.Tactic.Ring

/-!
# Scrolling terminals

`Terminal` is the grid that a user sees. `Screen` is the same display as a display adapter
keeps it, one row after the other in a flat array with one cursor index, where a step that
leaves the array scrolls it by a row. `Screen.terminal` takes each operation of the second to
that of the first.
-/
namespace Library

variable {κ : Type} {rows cols : Nat}

@[ext] structure Terminal (κ : Type) (rows cols : Nat) where
  cell : Fin rows → Fin cols → κ
  row : Fin rows
  col : Fin cols

namespace Terminal

def firstCol (t : Terminal κ rows cols) : Fin cols := ⟨0, by have := t.col.isLt; omega⟩

def lastCol (t : Terminal κ rows cols) : Fin cols := ⟨cols - 1, by have := t.col.isLt; omega⟩

/-- Down a row; on the last row, every row moves up and a blank one comes in. -/
def lineFeed (blank : κ) (t : Terminal κ rows cols) : Terminal κ rows cols :=
  if h : t.row + 1 < rows then { t with row := ⟨t.row + 1, h⟩ }
  else { t with cell := fun r c => if h : r + 1 < rows then t.cell ⟨r + 1, h⟩ c else blank }

def carriageReturn (t : Terminal κ rows cols) : Terminal κ rows cols :=
  { t with col := t.firstCol }

def newline (blank : κ) (t : Terminal κ rows cols) : Terminal κ rows cols :=
  t.carriageReturn.lineFeed blank

def write (k : κ) (t : Terminal κ rows cols) : Terminal κ rows cols :=
  { t with cell := fun r c => if r = t.row ∧ c = t.col then k else t.cell r c }

/-- Fill the cursor cell and advance, to the next row after the last column. -/
def put (blank k : κ) (t : Terminal κ rows cols) : Terminal κ rows cols :=
  let t := t.write k
  if h : t.col + 1 < cols then { t with col := ⟨t.col + 1, h⟩ } else t.newline blank

/-- Back to the preceding cell, which becomes `k`, unless at the top left. -/
def backspace (k : κ) (t : Terminal κ rows cols) : Terminal κ rows cols :=
  if 0 < t.col.val then
    write k { t with col := ⟨t.col - 1, by have := t.col.isLt; omega⟩ }
  else if 0 < t.row.val then
    write k { t with row := ⟨t.row - 1, by have := t.row.isLt; omega⟩, col := t.lastCol }
  else t

end Terminal

/-- What can happen on a display. -/
inductive Action (κ : Type) where
  | put (k : κ)
  | newline
  | carriageReturn
  | backspace (k : κ)

def Terminal.act (blank : κ) (t : Terminal κ rows cols) : Action κ → Terminal κ rows cols
  | .put k => t.put blank k
  | .newline => t.newline blank
  | .carriageReturn => t.carriageReturn
  | .backspace k => t.backspace k

/-- The display in one array, row after row. -/
@[ext] structure Screen (κ : Type) (rows cols : Nat) where
  cell : Fin (rows * cols) → κ
  pos : Fin (rows * cols)

namespace Screen

/-- The display with the cursor at `p`, scrolled by a row if that is past the end. -/
def settle (blank : κ) (cell : Fin (rows * cols) → κ) (p : Nat)
    (reach : p < rows * cols + cols) (positive : 0 < rows * cols) : Screen κ rows cols :=
  if h : p < rows * cols then ⟨cell, ⟨p, h⟩⟩
  else
    { cell := fun i => if h : i + cols < rows * cols then cell ⟨i + cols, h⟩ else blank
      pos := ⟨p - cols, by omega⟩ }

theorem settle_self (blank : κ) (s : Screen κ rows cols) (reach : s.pos < rows * cols + cols)
    (positive : 0 < rows * cols) : settle blank s.cell s.pos reach positive = s :=
  dif_pos s.pos.isLt

theorem cols_pos (s : Screen κ rows cols) : 0 < cols := by
  rcases Nat.eq_zero_or_pos cols with rfl | positive
  · exact absurd s.pos.isLt (by simp)
  · exact positive

def put (blank k : κ) (s : Screen κ rows cols) : Screen κ rows cols :=
  settle blank (Function.update s.cell s.pos k) (s.pos + 1)
    (by have := s.pos.isLt; have := s.cols_pos; omega) (by have := s.pos.isLt; omega)

def carriageReturn (s : Screen κ rows cols) : Screen κ rows cols :=
  { s with pos := ⟨s.pos - s.pos % cols, by have := s.pos.isLt; omega⟩ }

def newline (blank : κ) (s : Screen κ rows cols) : Screen κ rows cols :=
  settle blank s.cell (s.pos + cols - (s.pos + cols) % cols)
    (by have := s.pos.isLt; omega) (by have := s.pos.isLt; omega)

def backspace (k : κ) (s : Screen κ rows cols) : Screen κ rows cols :=
  if 0 < s.pos.val then
    let p : Fin (rows * cols) := ⟨s.pos - 1, by have := s.pos.isLt; omega⟩
    { cell := Function.update s.cell p k, pos := p }
  else s

def act (blank : κ) (s : Screen κ rows cols) : Action κ → Screen κ rows cols
  | .put k => s.put blank k
  | .newline => s.newline blank
  | .carriageReturn => s.carriageReturn
  | .backspace k => s.backspace k

/-! ### The grid that a screen shows -/

/-- The index of a cell in the array. -/
def index (r : Fin rows) (c : Fin cols) : Fin (rows * cols) :=
  ⟨r * cols + c, by
    have row := Nat.mul_le_mul_right cols (Nat.succ_le_of_lt r.isLt)
    have := c.isLt
    rw [Nat.succ_mul] at row
    omega⟩

def rowOf (p : Fin (rows * cols)) : Fin rows :=
  ⟨p / cols, Nat.div_lt_of_lt_mul (Nat.lt_of_lt_of_eq p.isLt (Nat.mul_comm rows cols))⟩

def colOf (p : Fin (rows * cols)) : Fin cols :=
  ⟨p % cols, Nat.mod_lt _ (by
    rcases Nat.eq_zero_or_pos cols with rfl | positive
    · exact absurd p.isLt (by simp)
    · exact positive)⟩

def terminal (s : Screen κ rows cols) : Terminal κ rows cols where
  cell := fun r c => s.cell (index r c)
  row := rowOf s.pos
  col := colOf s.pos

theorem rowOf_index (r : Fin rows) (c : Fin cols) : rowOf (index r c) = r := by
  apply Fin.ext
  have positive : 0 < cols := by have := c.isLt; omega
  simp only [rowOf, index]
  rw [Nat.mul_comm, Nat.mul_add_div positive, Nat.div_eq_of_lt c.isLt, Nat.add_zero]

theorem colOf_index (r : Fin rows) (c : Fin cols) : colOf (index r c) = c := by
  apply Fin.ext
  simp only [colOf, index]
  rw [Nat.mul_comm, Nat.mul_add_mod, Nat.mod_eq_of_lt c.isLt]

theorem index_rowOf_colOf (p : Fin (rows * cols)) : index (rowOf p) (colOf p) = p := by
  apply Fin.ext
  simp only [rowOf, colOf, index]
  rw [Nat.mul_comm]
  exact Nat.div_add_mod _ _

theorem index_eq_iff (r : Fin rows) (c : Fin cols) (p : Fin (rows * cols)) :
    index r c = p ↔ r = rowOf p ∧ c = colOf p := by
  constructor
  · rintro rfl
    exact ⟨(rowOf_index r c).symm, (colOf_index r c).symm⟩
  · rintro ⟨rfl, rfl⟩
    exact index_rowOf_colOf p

/-! ### Each operation on the array is the one on the grid -/

/-- The cursor at the start of the row after `r` is a line feed from row `r`. -/
theorem settle_nextRow (blank : κ) (cell : Fin (rows * cols) → κ) (r : Fin rows) (c : Fin cols)
    {p : Nat} (start : p = (r + 1) * cols) (reach : p < rows * cols + cols)
    (positive : 0 < rows * cols) :
    (settle blank cell p reach positive).terminal =
      Terminal.newline blank ⟨fun r c => cell (index r c), r, c⟩ := by
  subst start
  have width : 0 < cols := by have := c.isLt; omega
  unfold settle Terminal.newline Terminal.lineFeed Terminal.carriageReturn
  by_cases below : r + 1 < rows
  · -- there is a row below
    have inside : (r + 1) * cols < rows * cols := Nat.mul_lt_mul_of_pos_right below width
    rw [dif_pos inside, dif_pos below]
    ext
    · rfl
    · simp [terminal, rowOf, width]
    · simp [terminal, colOf, Terminal.firstCol]
  · -- from the last row the array scrolls
    have last : r + 1 = rows := by have := r.isLt; omega
    have outside : ¬(r + 1) * cols < rows * cols := by rw [last]; omega
    have back : (r + 1) * cols - cols = r * cols := by rw [Nat.succ_mul]; omega
    rw [dif_neg outside, dif_neg below]
    ext
    · next r' c' =>
      have next : index r' c' + cols = (r' + 1) * cols + c' := by
        simp only [index]
        rw [Nat.succ_mul]
        omega
      by_cases more : r'.val + 1 < rows
      · have inside : (index r' c').val + cols < rows * cols := by
          rw [next]
          exact (index ⟨r' + 1, more⟩ c').isLt
        simp only [terminal]
        rw [dif_pos inside, dif_pos more]
        congr 1
        exact Fin.ext next
      · -- the last row is what comes in
        have beyond : ¬(index r' c').val + cols < rows * cols := by
          rw [next, show r'.val + 1 = rows by have := r'.isLt; omega]
          omega
        simp only [terminal]
        rw [dif_neg beyond, dif_neg more]
    · simp [terminal, rowOf, back, width]
    · simp [terminal, colOf, Terminal.firstCol, back]

theorem terminal_carriageReturn (s : Screen κ rows cols) :
    s.carriageReturn.terminal = s.terminal.carriageReturn := by
  have width := s.cols_pos
  have start : s.pos.val - s.pos.val % cols = cols * (s.pos.val / cols) := by
    have := Nat.div_add_mod s.pos.val cols
    omega
  ext
  · rfl
  · simp [terminal, carriageReturn, Terminal.carriageReturn, rowOf, start, width]
  · simp [terminal, carriageReturn, Terminal.carriageReturn, Terminal.firstCol, colOf, start]

theorem terminal_newline (blank : κ) (s : Screen κ rows cols) :
    (s.newline blank).terminal = s.terminal.newline blank := by
  have start : s.pos + cols - (s.pos + cols) % cols = ((rowOf s.pos).val + 1) * cols := by
    have := Nat.div_add_mod s.pos.val cols
    rw [Nat.add_mod_right, Nat.succ_mul, Nat.mul_comm (rowOf s.pos).val]
    simp only [rowOf]
    omega
  exact settle_nextRow blank s.cell (rowOf s.pos) (colOf s.pos) start _ _

theorem terminal_update (cell : Fin (rows * cols) → κ) (p : Fin (rows * cols)) (k : κ) :
    terminal ⟨Function.update cell p k, p⟩ = (terminal ⟨cell, p⟩).write k := by
  ext r c
  · exact (Function.update_apply ..).trans (if_congr (index_eq_iff r c p) rfl rfl)
  · rfl
  · rfl

/-- The cursor where it is known to be. -/
theorem terminal_at (cell : Fin (rows * cols) → κ) {p : Fin (rows * cols)} (r : Fin rows)
    (c : Fin cols) (same : p.val = r * cols + c) :
    terminal ⟨cell, p⟩ = ⟨fun r c => cell (index r c), r, c⟩ := by
  obtain rfl : index r c = p := Fin.ext same.symm
  unfold terminal
  rw [rowOf_index, colOf_index]

theorem pos_eq (s : Screen κ rows cols) :
    s.pos.val = (rowOf s.pos).val * cols + (colOf s.pos).val := by
  have whole := Nat.div_add_mod s.pos.val cols
  rw [Nat.mul_comm] at whole
  exact whole.symm

theorem terminal_put (blank k : κ) (s : Screen κ rows cols) :
    (s.put blank k).terminal = s.terminal.put blank k := by
  have written := terminal_update s.cell s.pos k
  have whole := s.pos_eq
  unfold put Terminal.put
  rw [show s.terminal = terminal ⟨s.cell, s.pos⟩ from rfl, ← written]
  dsimp only
  by_cases inside : (colOf s.pos).val + 1 < cols
  · -- still in the same row
    have next : s.pos.val + 1 = (index (rowOf s.pos) ⟨(colOf s.pos).val + 1, inside⟩).val := by
      simp only [index]
      omega
    have bound : s.pos.val + 1 < rows * cols := by
      rw [next]
      exact (index _ _).isLt
    rw [settle, dif_pos bound, dif_pos (by exact inside)]
    exact terminal_at _ (rowOf s.pos) ⟨(colOf s.pos).val + 1, inside⟩ next
  · -- past the last column
    have last : (colOf s.pos).val + 1 = cols := by have := (colOf s.pos).isLt; omega
    have start : s.pos.val + 1 = ((rowOf s.pos).val + 1) * cols := by
      rw [Nat.succ_mul]
      omega
    rw [dif_neg (by exact inside)]
    exact settle_nextRow blank _ (rowOf s.pos) (colOf s.pos) start _ _

theorem terminal_backspace (k : κ) (s : Screen κ rows cols) :
    (s.backspace k).terminal = s.terminal.backspace k := by
  have whole := s.pos_eq
  have width := s.cols_pos
  unfold backspace Terminal.backspace
  by_cases inRow : 0 < s.terminal.col.val
  · -- within the row
    have before : s.pos.val - 1 = (rowOf s.pos).val * cols + ((colOf s.pos).val - 1) := by
      have : 0 < (colOf s.pos).val := inRow
      omega
    have positive : 0 < s.pos.val := by
      have : 0 < (colOf s.pos).val := inRow
      omega
    have preceding := terminal_at s.cell
      (p := ⟨s.pos - 1, by have := s.pos.isLt; omega⟩) (rowOf s.pos)
      ⟨(colOf s.pos).val - 1, by have := (colOf s.pos).isLt; omega⟩ before
    rw [if_pos positive, if_pos inRow]
    dsimp only
    rw [terminal_update, preceding]
    rfl
  · have start : (colOf s.pos).val = 0 := Nat.eq_zero_of_not_pos inRow
    rw [if_neg inRow]
    by_cases below : 0 < s.terminal.row.val
    · -- from the first column to the last one of the row above
      have before : s.pos.val - 1 = ((rowOf s.pos).val - 1) * cols + (cols - 1) := by
        obtain ⟨r, above⟩ : ∃ r, (rowOf s.pos).val = r + 1 :=
          ⟨(rowOf s.pos).val - 1, by have : 0 < (rowOf s.pos).val := below; omega⟩
        rw [above, Nat.succ_mul] at whole
        rw [above, Nat.add_sub_cancel]
        omega
      have preceding := terminal_at s.cell
        (p := ⟨s.pos - 1, by have := s.pos.isLt; omega⟩)
        ⟨(rowOf s.pos).val - 1, by have := (rowOf s.pos).isLt; omega⟩
        ⟨cols - 1, by omega⟩ before
      have positive : 0 < s.pos.val := by
        have := Nat.mul_le_mul_right cols (show 1 ≤ (rowOf s.pos).val from below)
        omega
      rw [if_pos positive, if_pos below]
      dsimp only
      rw [terminal_update, preceding]
      rfl
    · have topLeft : ¬0 < s.pos.val := by
        rw [show (rowOf s.pos).val = 0 from Nat.eq_zero_of_not_pos below, Nat.zero_mul] at whole
        omega
      rw [if_neg topLeft, if_neg below]

theorem terminal_act (blank : κ) (s : Screen κ rows cols) (a : Action κ) :
    (s.act blank a).terminal = s.terminal.act blank a := by
  cases a with
  | put k => exact terminal_put blank k s
  | newline => exact terminal_newline blank s
  | carriageReturn => exact terminal_carriageReturn s
  | backspace k => exact terminal_backspace k s

theorem terminal_acts (blank : κ) (s : Screen κ rows cols) (actions : List (Action κ)) :
    (actions.foldl (act blank) s).terminal = actions.foldl (Terminal.act blank) s.terminal := by
  induction actions generalizing s with
  | nil => rfl
  | cons a actions ih => rw [List.foldl_cons, List.foldl_cons, ih, terminal_act]

/-! ### What stands before the cursor -/

section Trail

variable {β : Type} {f : κ → β} {chars : List β}

/-- Seen through `f`, the cells just before index `q` are `chars`. -/
def Ends (f : κ → β) (cell : Fin (rows * cols) → κ) (q : Nat) (chars : List β) : Prop :=
  chars.length ≤ q ∧
    ∀ k (p : Fin (rows * cols)), k < chars.length → p + chars.length = q + k →
      chars[k]? = some (f (cell p))

/-- The cells just before the cursor are `chars`. -/
def Trail (f : κ → β) (s : Screen κ rows cols) (chars : List β) : Prop :=
  Ends f s.cell s.pos chars

/-- A scroll takes the line along, unless the line is too long for the rows that stay. -/
theorem trail_settle (blank : κ) {cell : Fin (rows * cols) → κ} {q : Nat}
    (ends : Ends f cell q chars) (edge : q ≤ rows * cols) (reach : q < rows * cols + cols)
    (positive : 0 < rows * cols) (room : chars.length + cols ≤ rows * cols) :
    Trail f (settle blank cell q reach positive) chars := by
  obtain ⟨before, cells⟩ := ends
  unfold settle
  split
  · exact ⟨before, cells⟩
  · next past =>
    constructor
    · dsimp only
      omega
    · intro k p inside place
      dsimp only at place ⊢
      -- a cell of the line is found a row further up
      have stays : p.val + cols < rows * cols := by omega
      rw [dif_pos stays]
      exact cells k ⟨p + cols, stays⟩ inside (by dsimp only; omega)

theorem trail_put (blank k : κ) {s : Screen κ rows cols} (trail : Trail f s chars)
    (room : chars.length + cols < rows * cols) :
    Trail f (s.put blank k) (chars ++ [f k]) := by
  obtain ⟨before, cells⟩ := trail
  apply trail_settle
  · constructor
    · rw [List.length_append, List.length_singleton]
      omega
    · intro j p inside place
      rw [List.length_append, List.length_singleton] at inside place
      by_cases last : j = chars.length
      · -- the new character is in the cell that was just filled
        obtain rfl : p = s.pos := Fin.ext (by omega)
        rw [Function.update_self, last, List.getElem?_concat_length]
      · have other : p ≠ s.pos := by
          rintro rfl
          omega
        rw [Function.update_of_ne other, List.getElem?_append_left (by omega)]
        exact cells j p (by omega) (by omega)
  · exact s.pos.isLt
  · rw [List.length_append, List.length_singleton]
    omega

theorem trail_backspace (k : κ) {s : Screen κ rows cols} {b : β}
    (trail : Trail f s (chars ++ [b])) : Trail f (s.backspace k) chars := by
  obtain ⟨before, cells⟩ := trail
  rw [List.length_append, List.length_singleton] at before cells
  have positive : 0 < s.pos.val := by omega
  unfold backspace
  rw [if_pos positive]
  constructor
  · dsimp only
    omega
  · intro j p inside place
    dsimp only at place ⊢
    have other : p ≠ ⟨s.pos - 1, by have := s.pos.isLt; omega⟩ := by
      intro equal
      rw [equal] at place
      dsimp only at place
      omega
    rw [Function.update_of_ne other, ← cells j p (by omega) (by omega),
      List.getElem?_append_left inside]

end Trail

end Screen

end Library
