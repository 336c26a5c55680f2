import Jos.Kern.ConsoleOutput
import Jos.Library.Terminal

/-!
# The text buffer as a screen

The cells of the buffer are halfwords of memory. A store changes one of them, and the scroll,
an overlapping `memmove` followed by a loop over the last row, is `Screen.settle`.
-/
namespace Jos

open Library

/-- A character and its attribute. -/
abbrev Cell := BitVec 16

abbrev CrtScreen := Screen Cell CRT_ROWS CRT_COLS

/-- The reference terminal. -/
abbrev CrtTerminal := Terminal Cell CRT_ROWS CRT_COLS

def blankCell : Cell := 0x0720

/-- The cells of the buffer are `f`. -/
def Cells (con : Console) (f : Fin (CRT_ROWS * CRT_COLS) → Cell) : Prop :=
  ∀ i : Fin (CRT_ROWS * CRT_COLS), load16 con.mem (con.cellAddr i) = f i

/-- Nothing but the text buffer changes in memory, and the adapter is the same one. -/
structure Kept (con con' : Console) : Prop where
  adapter : con'.adapter = con.adapter
  mem : ∀ a, 2 * CRT_SIZE ≤ (a - con.adapter.crtBuf).toNat → con'.mem a = con.mem a

theorem Kept.refl (con : Console) : Kept con con := ⟨rfl, fun _ _ => rfl⟩

theorem Kept.trans {con con' con'' : Console} (first : Kept con con') (second : Kept con' con'') :
    Kept con con'' where
  adapter := second.adapter.trans first.adapter
  mem := fun a outside =>
    (second.mem a (by rwa [first.adapter])).trans (first.mem a outside)

theorem crtBuf_bound (adapter : Adapter) : adapter.crtBuf.toNat + 2 * CRT_SIZE ≤ 4294967296 := by
  cases adapter <;> decide

theorem cellAddr_toNat (con : Console) {i : Nat} (inside : i < CRT_SIZE) :
    (con.cellAddr i).toNat = con.adapter.crtBuf.toNat + 2 * i := by
  have bound := crtBuf_bound con.adapter
  rw [Console.cellAddr, BitVec.toNat_add, BitVec.toNat_ofNat]
  omega

/-- Different cells share no byte. -/
theorem cellAddr_apart (con : Console) {i j : Nat} (iInside : i < CRT_SIZE) (jInside : j < CRT_SIZE)
    (apart : j ≠ i) : con.cellAddr j ≠ con.cellAddr i ∧
      con.cellAddr j ≠ con.cellAddr i + 1 ∧ con.cellAddr j + 1 ≠ con.cellAddr i := by
  have here := cellAddr_toNat con iInside
  have there := cellAddr_toNat con jInside
  have bound := crtBuf_bound con.adapter
  have size : CRT_SIZE = 2000 := rfl
  generalize con.cellAddr j = b at *
  generalize con.cellAddr i = a at *
  bv_omega

/-- Bytes outside the buffer are in no cell. -/
theorem cellAddr_outside (con : Console) {i : Nat} (inside : i < CRT_SIZE) {a : BitVec 32}
    (outside : 2 * CRT_SIZE ≤ (a - con.adapter.crtBuf).toNat) :
    a ≠ con.cellAddr i ∧ a ≠ con.cellAddr i + 1 := by
  have here := cellAddr_toNat con inside
  have bound := crtBuf_bound con.adapter
  have size : CRT_SIZE = 2000 := rfl
  generalize con.cellAddr i = b at *
  generalize con.adapter.crtBuf = base at *
  bv_omega

theorem cells_store {con : Console} {f : Fin (CRT_ROWS * CRT_COLS) → Cell} (cells : Cells con f)
    (i : Fin (CRT_ROWS * CRT_COLS)) (v : Cell) :
    ∃ con', con.crtStore i v = .ok con' ∧ Cells con' (Function.update f i v) ∧ Kept con con' ∧
      con'.crtPos = con.crtPos := by
  have inside : i.val < CRT_SIZE := i.isLt
  refine ⟨_, if_pos inside, ?_, ⟨rfl, ?_⟩, rfl⟩
  · intro j
    by_cases same : j = i
    · subst same
      rw [Function.update_self]
      exact load16_store16 ..
    · have apart : j.val ≠ i.val := fun equal => same (Fin.ext equal)
      -- the two halfwords are apart
      obtain ⟨equal, above, below⟩ := cellAddr_apart con inside j.isLt apart
      rw [Function.update_of_ne same, ← cells j]
      exact load16_store16_of_ne _ _ equal above below
  · intro a outside
    obtain ⟨low, high⟩ := cellAddr_outside con inside outside
    exact store16_frame _ _ low high

theorem cells_blank (count start : Nat) (inside : start + count ≤ CRT_SIZE) {con : Console}
    {f : Fin (CRT_ROWS * CRT_COLS) → Cell} (cells : Cells con f) :
    ∃ con', (List.range' start count).foldlM (fun con i => con.crtStore i blankCell) con =
        .ok con' ∧
      Cells con' (fun i => if start ≤ i.val ∧ i.val < start + count then blankCell else f i) ∧
      Kept con con' ∧ con'.crtPos = con.crtPos := by
  induction count generalizing start con f with
  | zero =>
    refine ⟨con, rfl, ?_, Kept.refl con, rfl⟩
    intro i
    dsimp only
    rw [if_neg (by omega)]
    exact cells i
  | succ count ih =>
    have first : start < CRT_SIZE := by omega
    -- the first cell is blanked before the others
    obtain ⟨next, stored, written, kept, pos⟩ := cells_store cells ⟨start, first⟩ blankCell
    obtain ⟨con', rest, blanked, kept', pos'⟩ := ih (start + 1) (by omega) written
    refine ⟨con', ?_, ?_, kept.trans kept', pos'.trans pos⟩
    · rw [List.range'_succ, List.foldlM_cons, stored]
      exact rest
    · intro i
      rw [blanked i]
      dsimp only
      by_cases same : i = ⟨start, first⟩
      · subst same
        rw [Function.update_self, if_neg (by simp), if_pos (by simp)]
      · have apart : i.val ≠ start := fun equal => same (Fin.ext equal)
        rw [Function.update_of_ne same]
        exact if_congr (by omega) rfl rfl

/-- The bytes of all rows but the last one. -/
theorem scroll_length :
    (BitVec.ofNat 32 ((CRT_SIZE - CRT_COLS) * 2)).toNat = (CRT_SIZE - CRT_COLS) * 2 := by
  decide

theorem cellAddr_add (con : Console) (i j : Nat) :
    con.cellAddr i + BitVec.ofNat 32 (2 * j) = con.cellAddr (i + j) := by
  rw [Console.cellAddr, Console.cellAddr, BitVec.add_assoc, ← BitVec.ofNat_add, Nat.mul_add]

/-- The overlapping `memmove` of the scroll moves every row up by one. -/
theorem memmove_rows (con : Console) :
    memmove (con.cellAddr 0) (con.cellAddr CRT_COLS)
      (BitVec.ofNat 32 ((CRT_SIZE - CRT_COLS) * 2)) con.mem =
      copied con.mem (con.cellAddr 0) (con.cellAddr CRT_COLS) 0 (2 * (CRT_SIZE - CRT_COLS)) := by
  have first := cellAddr_toNat con (show 0 < CRT_SIZE by decide)
  have second := cellAddr_toNat con (show CRT_COLS < CRT_SIZE by decide)
  have bound := crtBuf_bound con.adapter
  have size : CRT_SIZE = 2000 := rfl
  have cols : CRT_COLS = 80 := rfl
  have length := scroll_length
  rw [memmove_copied (by omega) (by omega), length, Nat.mul_comm]

theorem cells_moveUp {con : Console} {f : Fin (CRT_ROWS * CRT_COLS) → Cell} {mem : Mem}
    (cells : Cells con f)
    (moved : mem = copied con.mem (con.cellAddr 0) (con.cellAddr CRT_COLS) 0
      (2 * (CRT_SIZE - CRT_COLS))) :
    Cells { con with mem } (fun i =>
      if h : i + CRT_COLS < CRT_ROWS * CRT_COLS then f ⟨i + CRT_COLS, h⟩ else f i) ∧
    Kept con { con with mem } := by
  subst moved
  have size : CRT_SIZE = 2000 := rfl
  have cols : CRT_COLS = 80 := rfl
  have rows : CRT_ROWS * CRT_COLS = 2000 := rfl
  constructor
  · intro i
    have place : con.cellAddr i = con.cellAddr 0 + BitVec.ofNat 32 (2 * i.val) := by
      rw [cellAddr_add, Nat.zero_add]
    dsimp only
    split
    · next inside =>
      -- the cell of the row below
      rw [← cells ⟨i + CRT_COLS, inside⟩]
      calc load16 _ (con.cellAddr i)
          = load16 _ (con.cellAddr 0 + BitVec.ofNat 32 (2 * i.val)) := by rw [place]
        _ = load16 con.mem (con.cellAddr CRT_COLS + BitVec.ofNat 32 (2 * i.val)) :=
            load16_copied con.mem (by decide) (by omega)
        _ = load16 con.mem (con.cellAddr (i + CRT_COLS)) := by rw [cellAddr_add, Nat.add_comm]
    · next last =>
      -- the last row is not moved
      have below := i.isLt
      rw [← cells i]
      calc load16 _ (con.cellAddr i)
          = load16 _ (con.cellAddr 0 + BitVec.ofNat 32 (2 * i.val)) := by rw [place]
        _ = load16 con.mem (con.cellAddr 0 + BitVec.ofNat 32 (2 * i.val)) :=
            load16_copied_beyond con.mem (by omega) (by omega)
        _ = load16 con.mem (con.cellAddr i) := by rw [place]
  · refine ⟨rfl, ?_⟩
    intro a outside
    have start : con.cellAddr 0 = con.adapter.crtBuf := BitVec.add_zero _
    rw [← start] at outside
    apply copied_outside
    omega

/-- The buffer and the cursor are those of `s`. -/
structure Shows (con : Console) (s : CrtScreen) : Prop where
  pos : con.crtPos.toNat = s.pos
  cell : Cells con s.cell

/-- The screen that the buffer holds. -/
def Console.screen (con : Console) (inside : con.crtPos.toNat < CRT_SIZE) : CrtScreen :=
  ⟨fun i => load16 con.mem (con.cellAddr i), ⟨con.crtPos.toNat, inside⟩⟩

theorem shows_screen {con : Console} (inside : con.crtPos.toNat < CRT_SIZE) :
    Shows con (con.screen inside) := ⟨rfl, fun _ => rfl⟩

theorem Shows.bound {con : Console} {s : CrtScreen} (shows : Shows con s) :
    con.crtPos.toNat < CRT_SIZE := by
  rw [shows.pos]
  exact s.pos.isLt

theorem Shows.screen_eq {con : Console} {s : CrtScreen} (shows : Shows con s) :
    con.screen shows.bound = s :=
  Screen.ext (funext shows.cell) (Fin.ext shows.pos)

theorem scroll_settle {con : Console} {cell : Fin (CRT_ROWS * CRT_COLS) → Cell} {p : Nat}
    (cells : Cells con cell) (pos : con.crtPos.toNat = p)
    (reach : p < CRT_ROWS * CRT_COLS + CRT_COLS) (positive : 0 < CRT_ROWS * CRT_COLS) :
    ∃ con', con.scroll = .ok con' ∧
      Shows con' (Screen.settle blankCell cell p reach positive) ∧ Kept con con' := by
  subst pos
  unfold Console.scroll Screen.settle
  by_cases inside : con.crtPos.toNat < CRT_ROWS * CRT_COLS
  · have within : ¬con.crtPos.toNat ≥ CRT_SIZE := Nat.not_le.mpr inside
    rw [if_neg within, dif_pos inside]
    exact ⟨con, rfl, ⟨rfl, cells⟩, Kept.refl con⟩
  · have past : con.crtPos.toNat ≥ CRT_SIZE := Nat.le_of_not_lt inside
    obtain ⟨moved, kept⟩ := cells_moveUp cells (memmove_rows con)
    obtain ⟨con', blanked, cells', kept', pos⟩ :=
      cells_blank CRT_COLS (CRT_SIZE - CRT_COLS) (by decide) moved
    rw [if_pos past, dif_neg inside]
    refine ⟨{ con' with crtPos := con'.crtPos - BitVec.ofNat 16 CRT_COLS }, ?_, ⟨?_, ?_⟩, ?_⟩
    · exact congrArg (· >>= _) blanked
    · -- the cursor goes up with its row
      have back : (con.crtPos - BitVec.ofNat 16 CRT_COLS).toNat = con.crtPos.toNat - CRT_COLS := by
        have cols : CRT_COLS = 80 := rfl
        have size : CRT_SIZE = 2000 := rfl
        rw [cols]
        bv_omega
      exact (congrArg (fun pos => BitVec.toNat (pos - _)) pos).trans back
    · intro i
      refine (cells' i).trans ?_
      have rows : CRT_ROWS * CRT_COLS = 2000 := rfl
      have cols : CRT_COLS = 80 := rfl
      have size : CRT_SIZE = 2000 := rfl
      have below := i.isLt
      dsimp only
      by_cases more : i.val + CRT_COLS < CRT_ROWS * CRT_COLS
      · rw [dif_pos more, dif_pos more, if_neg (by omega)]
      · rw [if_pos (by omega), dif_neg more]
    · exact kept.trans ⟨kept'.adapter, kept'.mem⟩

end Jos
