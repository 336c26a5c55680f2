import Jos.Kern.TextBuffer
import Mathlib.Tactic.IntervalCases

/-!
# cga_putc is a scrolling terminal

Every character is an action on a screen of 25 rows of 80 cells, and `cga_putc` takes the text
buffer from one screen to the next, touches no other memory, and sends the cursor to the
display controller.
-/
namespace Jos

open Library

/-- Black on white unless the character comes with bits above its low byte. -/
def attributeOf (c : BitVec 32) : BitVec 8 :=
  if c.toNat < 256 then 0x07 else c.extractLsb' 8 8

/-- The character `ch` with the attribute of `c`. -/
def cellOf (c : BitVec 32) (ch : BitVec 8) : Cell := attributeOf c ++ ch

/-- What a character does on a terminal. -/
def typed (c : BitVec 32) : List (Action Cell) :=
  if c.setWidth 8 = 8#8 then [.backspace (cellOf c 0x20)]
  else if c.setWidth 8 = 10#8 then [.newline]
  else if c.setWidth 8 = 13#8 then [.carriageReturn]
  else if c.setWidth 8 = 9#8 then List.replicate 5 (.put blankCell)
  else [.put (cellOf c (c.setWidth 8))]

/-! ### The cell of a character -/

theorem append_bit (x y : BitVec 8) (i : Nat) :
    (x ++ y : BitVec 16).getLsbD i = if i < 8 then y.getLsbD i else x.getLsbD (i - 8) :=
  BitVec.getLsbD_append

theorem high_bit {w : BitVec 32} (small : w.toNat < 256) (i : Nat) (inside : i < 32)
    (high : 8 ≤ i) : w[i] = false := by
  rw [← BitVec.getLsbD_eq_getElem]
  exact Nat.testBit_lt_two_pow
    (Nat.lt_of_lt_of_le small (Nat.pow_le_pow_right (show 0 < 2 by decide) high))

theorem noAttribute_iff (c : BitVec 32) : c &&& ~~~0xFF#32 = 0 ↔ c.toNat < 256 := by
  -- clearing the low byte is shifting it out
  have shifted : c &&& ~~~0xFF#32 = (c >>> 8) <<< 8 := by
    ext i inside
    simp only [BitVec.getElem_and, BitVec.getElem_shiftLeft]
    interval_cases i <;> simp
  rw [shifted]
  constructor
  · intro zero
    bv_omega
  · intro small
    bv_omega

theorem low_byte_iff (c : BitVec 32) (k : BitVec 8) :
    c &&& 0xFF#32 = k.setWidth 32 ↔ c.setWidth 8 = k := by
  have low : c &&& 0xFF#32 = (c.setWidth 8).setWidth 32 := by
    ext i inside
    simp
    interval_cases i <;> simp
  rw [low]
  constructor
  · intro same
    bv_omega
  · intro same
    rw [same]

theorem withAttribute_low (c : BitVec 32) : (withAttribute c).setWidth 8 = c.setWidth 8 := by
  unfold withAttribute
  split
  · ext i inside
    simp
  · rfl

theorem withAttribute_high (c : BitVec 32) :
    (withAttribute c).extractLsb' 8 8 = attributeOf c := by
  unfold withAttribute attributeOf
  simp only [noAttribute_iff]
  split
  · next small =>
    ext i inside
    simp only [BitVec.getElem_extractLsb']
    interval_cases i <;> simp [high_bit small]
  · rfl

theorem stored_cell (c : BitVec 32) : c.setWidth 16 = c.extractLsb' 8 8 ++ c.setWidth 8 := by
  apply BitVec.eq_of_getLsbD_eq
  intro i inside
  rw [append_bit]
  interval_cases i <;> simp

theorem stored_blank (c : BitVec 32) :
    ((c &&& ~~~0xFF#32) ||| 0x20#32).setWidth 16 = c.extractLsb' 8 8 ++ 0x20#8 := by
  apply BitVec.eq_of_getLsbD_eq
  intro i inside
  rw [append_bit]
  interval_cases i <;> simp

/-! ### One character -/

/-- The port registers of the display controller that hold the cursor. -/
structure Crtc where
  selected : BitVec 8
  high : BitVec 8
  low : BitVec 8

namespace Crtc

def cursor (crtc : Crtc) : BitVec 16 := crtc.high ++ crtc.low

/-- The index register is at `addr`, the data register after it. -/
def write (addr : BitVec 32) (crtc : Crtc) (o : Outb) : Crtc :=
  if o.port = addr then { crtc with selected := o.data }
  else if o.port = addr + 1 then
    if crtc.selected = 14 then { crtc with high := o.data }
    else if crtc.selected = 15 then { crtc with low := o.data }
    else crtc
  else crtc

end Crtc

/-- The controller after everything that has been sent. -/
def Console.crtc (con : Console) (crtc : Crtc) : Crtc :=
  con.out.foldl (Crtc.write con.adapter.addr6845) crtc

/-- The controller has the cursor, whatever it held before. -/
def CursorSent (con : Console) : Prop := ∀ crtc, (con.crtc crtc).cursor = con.crtPos

theorem cursor_bytes (p : BitVec 16) : (p >>> 8).setWidth 8 ++ p.setWidth 8 = p := by
  apply BitVec.eq_of_getLsbD_eq
  intro i inside
  rw [append_bit]
  interval_cases i <;> simp

theorem moveCursor_sent (con : Console) : CursorSent con.moveCursor := by
  intro crtc
  refine Eq.trans ?_ (cursor_bytes con.crtPos)
  simp [Console.crtc, Console.moveCursor, Console.outb, Crtc.write, Crtc.cursor]

/-- What printing leaves of the console: the screen `s`, everything outside the buffer, and the
cursor at the controller. -/
structure Displayed (con con' : Console) (s : CrtScreen) : Prop where
  shows : Shows con' s
  kept : Kept con con'
  cursor : CursorSent con'

section Switch

variable {con : Console} {s : CrtScreen} (consPutc : BitVec 32 → Console → Exec Console)

/-- The switch in terms of the low byte and the attribute of the character. -/
theorem cgaSwitch_eq (c : BitVec 32) (con : Console) :
    con.cgaSwitch consPutc (withAttribute c) =
      if c.setWidth 8 = 8#8 then
        if con.crtPos > 0 then
          let con := { con with crtPos := con.crtPos - 1 }
          con.crtStore con.crtPos.toNat (cellOf c 0x20)
        else pure con
      else if c.setWidth 8 = 10#8 then
        pure (Console.ret { con with crtPos := con.crtPos + BitVec.ofNat 16 CRT_COLS })
      else if c.setWidth 8 = 13#8 then pure (Console.ret con)
      else if c.setWidth 8 = 9#8 then do
        let con ← consPutc 0x20 con
        let con ← consPutc 0x20 con
        let con ← consPutc 0x20 con
        let con ← consPutc 0x20 con
        consPutc 0x20 con
      else (do
        let con ← con.crtStore con.crtPos.toNat (cellOf c (c.setWidth 8))
        pure { con with crtPos := con.crtPos + 1 }) := by
  -- the attribute does not reach the byte that the switch looks at
  have control : ∀ k : BitVec 8, withAttribute c &&& 0xFF#32 = k.setWidth 32 ↔ c.setWidth 8 = k := by
    intro k
    rw [low_byte_iff, withAttribute_low]
  unfold Console.cgaSwitch
  rw [stored_blank, stored_cell, withAttribute_high, withAttribute_low]
  exact if_congr (control 8#8) rfl (if_congr (control 10#8) rfl (if_congr (control 13#8) rfl
    (if_congr (control 9#8) rfl rfl)))

theorem ret_toNat (con : Console) :
    (Console.ret con).crtPos.toNat = con.crtPos.toNat - con.crtPos.toNat % CRT_COLS := by
  -- the remainder is no more than the cursor, so nothing wraps
  have below : con.crtPos % BitVec.ofNat 16 CRT_COLS ≤ con.crtPos := by
    rw [BitVec.le_def, BitVec.toNat_umod]
    exact Nat.mod_le _ _
  rw [Console.ret, BitVec.toNat_sub_of_le below, BitVec.toNat_umod]
  rfl

/-- What follows the switch, which can have left the cursor past the end. -/
theorem switched_settle {c : BitVec 32} {con₁ : Console}
    {cell : Fin (CRT_ROWS * CRT_COLS) → Cell} {p : Nat}
    (switched : con.cgaSwitch consPutc (withAttribute c) = .ok con₁) (cells : Cells con₁ cell)
    (pos : con₁.crtPos.toNat = p) (kept : Kept con con₁)
    (reach : p < CRT_ROWS * CRT_COLS + CRT_COLS) (positive : 0 < CRT_ROWS * CRT_COLS) :
    ∃ con', cgaPutcWith consPutc c con = .ok con' ∧
      Displayed con con' (Screen.settle blankCell cell p reach positive) := by
  obtain ⟨con₂, scrolled, shows, kept₂⟩ := scroll_settle cells pos reach positive
  refine ⟨con₂.moveCursor, ?_, ⟨shows.pos, shows.cell⟩, kept.trans ⟨kept₂.adapter, kept₂.mem⟩,
    moveCursor_sent con₂⟩
  rw [cgaPutcWith, switched, Exec.ok_bind, scrolled, Exec.ok_bind, Exec.pure_eq_ok]

theorem switched_shows {c : BitVec 32} {con₁ : Console} {s₁ : CrtScreen}
    (switched : con.cgaSwitch consPutc (withAttribute c) = .ok con₁) (shows : Shows con₁ s₁)
    (kept : Kept con con₁) :
    ∃ con', cgaPutcWith consPutc c con = .ok con' ∧ Displayed con con' s₁ := by
  have inside := s₁.pos.isLt
  have result := switched_settle consPutc switched shows.cell shows.pos kept (by omega)
    (Nat.zero_lt_of_lt inside)
  rwa [Screen.settle_self] at result

theorem cgaPutcWith_backspace {c : BitVec 32} (shows : Shows con s)
    (isBackspace : c.setWidth 8 = 8#8) :
    ∃ con', cgaPutcWith consPutc c con = .ok con' ∧
      Displayed con con' (s.backspace (cellOf c 0x20)) := by
  have switched := cgaSwitch_eq consPutc c con
  rw [if_pos isBackspace] at switched
  have pos := shows.pos
  unfold Screen.backspace
  by_cases positive : 0 < s.pos.val
  · have some : con.crtPos > 0 := by bv_omega
    have back : (con.crtPos - 1).toNat = s.pos.val - 1 := by bv_omega
    have inside : s.pos.val - 1 < CRT_ROWS * CRT_COLS := by have := s.pos.isLt; omega
    have cells : Cells { con with crtPos := con.crtPos - 1 } s.cell := shows.cell
    obtain ⟨con₁, stored, cells₁, kept, pos₁⟩ :=
      cells_store cells ⟨s.pos - 1, inside⟩ (cellOf c 0x20)
    rw [if_pos some] at switched
    dsimp only at switched
    rw [back, stored] at switched
    rw [if_pos positive]
    have shows₁ : Shows con₁ ⟨Function.update s.cell ⟨s.pos - 1, inside⟩ (cellOf c 0x20),
        ⟨s.pos - 1, inside⟩⟩ := ⟨by rw [pos₁]; exact back, cells₁⟩
    exact switched_shows consPutc switched shows₁ ⟨kept.adapter, kept.mem⟩
  · -- at the top left nothing happens
    have none : ¬con.crtPos > 0 := by bv_omega
    rw [if_neg none] at switched
    rw [if_neg positive]
    exact switched_shows consPutc switched shows (Kept.refl con)

theorem cgaPutcWith_newline {c : BitVec 32} (shows : Shows con s)
    (isNewline : c.setWidth 8 = 10#8) :
    ∃ con', cgaPutcWith consPutc c con = .ok con' ∧
      Displayed con con' (s.newline blankCell) := by
  have switched := cgaSwitch_eq consPutc c con
  rw [if_neg (by rw [isNewline]; decide), if_pos isNewline] at switched
  -- the cursor is far from the bound of a halfword
  have next : (con.crtPos + BitVec.ofNat 16 CRT_COLS).toNat = s.pos.val + CRT_COLS := by
    have bound := shows.bound
    have size : CRT_SIZE = 2000 := rfl
    have cols : (BitVec.ofNat 16 CRT_COLS).toNat = 80 := rfl
    rw [BitVec.toNat_add_of_lt (by omega), shows.pos]
    rfl
  refine switched_settle consPutc switched shows.cell ?_ ⟨rfl, fun _ _ => rfl⟩ _ _
  rw [ret_toNat, next]

theorem cgaPutcWith_return {c : BitVec 32} (shows : Shows con s)
    (isReturn : c.setWidth 8 = 13#8) :
    ∃ con', cgaPutcWith consPutc c con = .ok con' ∧ Displayed con con' s.carriageReturn := by
  have switched := cgaSwitch_eq consPutc c con
  rw [if_neg (by rw [isReturn]; decide), if_neg (by rw [isReturn]; decide), if_pos isReturn]
    at switched
  have shows₁ : Shows (Console.ret con) s.carriageReturn :=
    ⟨by rw [ret_toNat, shows.pos]; rfl, shows.cell⟩
  exact switched_shows consPutc switched shows₁ ⟨rfl, fun _ _ => rfl⟩

theorem cgaPutcWith_put {c : BitVec 32} (shows : Shows con s) (noBackspace : c.setWidth 8 ≠ 8#8)
    (noNewline : c.setWidth 8 ≠ 10#8) (noReturn : c.setWidth 8 ≠ 13#8)
    (noTab : c.setWidth 8 ≠ 9#8) :
    ∃ con', cgaPutcWith consPutc c con = .ok con' ∧
      Displayed con con' (s.put blankCell (cellOf c (c.setWidth 8))) := by
  have switched := cgaSwitch_eq consPutc c con
  obtain ⟨con₁, stored, cells, kept, pos₁⟩ :=
    cells_store shows.cell s.pos (cellOf c (c.setWidth 8))
  rw [if_neg noBackspace, if_neg noNewline, if_neg noReturn, if_neg noTab, shows.pos, stored]
    at switched
  refine switched_settle consPutc switched cells ?_ ⟨kept.adapter, kept.mem⟩ _ _
  have bound := shows.bound
  have size : CRT_SIZE = 2000 := rfl
  have pos := shows.pos
  dsimp only
  rw [pos₁]
  bv_omega

/-- Every character but a tab. -/
theorem cgaPutcWith_plain {c : BitVec 32} (shows : Shows con s) (noTab : c.setWidth 8 ≠ 9#8) :
    ∃ con', cgaPutcWith consPutc c con = .ok con' ∧
      Displayed con con' ((typed c).foldl (Screen.act blankCell) s) := by
  unfold typed
  by_cases isBackspace : c.setWidth 8 = 8#8
  · rw [if_pos isBackspace]
    exact cgaPutcWith_backspace consPutc shows isBackspace
  · rw [if_neg isBackspace]
    by_cases isNewline : c.setWidth 8 = 10#8
    · rw [if_pos isNewline]
      exact cgaPutcWith_newline consPutc shows isNewline
    · rw [if_neg isNewline]
      by_cases isReturn : c.setWidth 8 = 13#8
      · rw [if_pos isReturn]
        exact cgaPutcWith_return consPutc shows isReturn
      · rw [if_neg isReturn, if_neg noTab]
        exact cgaPutcWith_put consPutc shows isBackspace isNewline isReturn noTab

end Switch

/-! ### Any text -/

section Text

variable {con con' con'' : Console} {s s' s'' : CrtScreen}

theorem Displayed.trans (first : Displayed con con' s') (second : Displayed con' con'' s'') :
    Displayed con con'' s'' := ⟨second.shows, first.kept.trans second.kept, second.cursor⟩

/-- The serial and the parallel port have no part in the display. -/
theorem consPutcNested_shows {depth : Nat} {c : BitVec 32} (shows : Shows con s)
    (inner : ∀ con, Shows con s →
      ∃ con', cgaPutcWith (consPutcNested depth) c con = .ok con' ∧ Displayed con con' s') :
    ∃ con', consPutcNested (depth + 1) c con = .ok con' ∧ Displayed con con' s' := by
  obtain ⟨con', printed, displayed⟩ :=
    inner ((con.serialPutc c).lptPutc c) ⟨shows.pos, shows.cell⟩
  exact ⟨con', printed, displayed.shows, ⟨displayed.kept.adapter, displayed.kept.mem⟩,
    displayed.cursor⟩

theorem consPutcNested_space (depth : Nat) (shows : Shows con s) :
    ∃ con', consPutcNested (depth + 1) 0x20 con = .ok con' ∧
      Displayed con con' (s.act blankCell (.put blankCell)) :=
  consPutcNested_shows shows fun _ shows =>
    cgaPutcWith_plain (consPutcNested depth) shows (by decide)

theorem cgaPutcWith_tab {depth : Nat} {c : BitVec 32} (shows : Shows con s)
    (isTab : c.setWidth 8 = 9#8) :
    ∃ con', cgaPutcWith (consPutcNested (depth + 1)) c con = .ok con' ∧
      Displayed con con' ((typed c).foldl (Screen.act blankCell) s) := by
  have switched := cgaSwitch_eq (consPutcNested (depth + 1)) c con
  rw [if_neg (by rw [isTab]; decide), if_neg (by rw [isTab]; decide),
    if_neg (by rw [isTab]; decide), if_pos isTab] at switched
  have actions : typed c = List.replicate 5 (.put blankCell) := by
    unfold typed
    rw [isTab]
    rfl
  -- every blank goes through all of `cons_putc`, and may scroll
  obtain ⟨con₁, printed₁, displayed₁⟩ := consPutcNested_space depth shows
  obtain ⟨con₂, printed₂, displayed₂⟩ := consPutcNested_space depth displayed₁.shows
  obtain ⟨con₃, printed₃, displayed₃⟩ := consPutcNested_space depth displayed₂.shows
  obtain ⟨con₄, printed₄, displayed₄⟩ := consPutcNested_space depth displayed₃.shows
  obtain ⟨con₅, printed₅, displayed₅⟩ := consPutcNested_space depth displayed₄.shows
  rw [printed₁, Exec.ok_bind, printed₂, Exec.ok_bind, printed₃, Exec.ok_bind, printed₄,
    Exec.ok_bind, printed₅] at switched
  have five := (((displayed₁.trans displayed₂).trans displayed₃).trans displayed₄).trans displayed₅
  simp only [actions, List.replicate, List.foldl_cons, List.foldl_nil]
  exact switched_shows _ switched five.shows five.kept

theorem cgaPutcWith_shows (depth : Nat) (c : BitVec 32) (shows : Shows con s) :
    ∃ con', cgaPutcWith (consPutcNested (depth + 1)) c con = .ok con' ∧
      Displayed con con' ((typed c).foldl (Screen.act blankCell) s) := by
  by_cases isTab : c.setWidth 8 = 9#8
  · exact cgaPutcWith_tab shows isTab
  · exact cgaPutcWith_plain _ shows isTab

theorem consPutc_shows (c : BitVec 32) (shows : Shows con s) :
    ∃ con', consPutc c con = .ok con' ∧
      Displayed con con' ((typed c).foldl (Screen.act blankCell) s) :=
  consPutcNested_shows shows fun _ shows => cgaPutcWith_shows 0 c shows

/-- The screen after a text, one character at a time. -/
theorem cgaPutc_run (text : List (BitVec 32)) (shows : Shows con s) :
    ∃ con', text.foldlM (fun con c => cgaPutc c con) con = .ok con' ∧
      Shows con' ((text.flatMap typed).foldl (Screen.act blankCell) s) ∧ Kept con con' ∧
      (text ≠ [] → CursorSent con') := by
  induction text generalizing con s with
  | nil => exact ⟨con, rfl, shows, Kept.refl con, fun nonempty => absurd rfl nonempty⟩
  | cons c text ih =>
    obtain ⟨con₁, printed, displayed⟩ := cgaPutcWith_shows 0 c shows
    obtain ⟨con', rest, shows', kept, sent⟩ := ih displayed.shows
    refine ⟨con', ?_, ?_, displayed.kept.trans kept, ?_⟩
    · rw [List.foldlM_cons, cgaPutc, printed]
      exact rest
    · rwa [List.flatMap_cons, List.foldl_append]
    · intro _
      -- the last character sends the cursor
      cases text with
      | nil =>
        obtain rfl : con₁ = con' := by injection rest
        exact displayed.cursor
      | cons => exact sent (List.cons_ne_nil _ _)

end Text

/-- The display as the user sees it. -/
def Console.terminal (con : Console) (inside : con.crtPos.toNat < CRT_SIZE) : CrtTerminal :=
  (con.screen inside).terminal

/-- Printing is the reference terminal: no store leaves the buffer, the cursor stays in it, the
display is what the terminal makes of the characters, nothing outside the buffer changes, and
the controller is told of the cursor. -/
theorem cgaPutc_terminal (con : Console) (inside : con.crtPos.toNat < CRT_SIZE)
    (text : List (BitVec 32)) :
    ∃ con', text.foldlM (fun con c => cgaPutc c con) con = .ok con' ∧
      (∃ inside' : con'.crtPos.toNat < CRT_SIZE, con'.terminal inside' =
        (text.flatMap typed).foldl (Terminal.act blankCell) (con.terminal inside)) ∧
      (∀ a, 2 * CRT_SIZE ≤ (a - con.adapter.crtBuf).toNat → con'.mem a = con.mem a) ∧
      (text ≠ [] → ∀ crtc, (con'.crtc crtc).cursor = con'.crtPos) := by
  obtain ⟨con', printed, shows, kept, sent⟩ := cgaPutc_run text (shows_screen inside)
  refine ⟨con', printed, ⟨shows.bound, ?_⟩, kept.mem, sent⟩
  rw [Console.terminal, shows.screen_eq, Screen.terminal_acts]
  rfl

/-- A letter in the last cell scrolls the screen. -/
theorem cgaPutc_terminal_lastCell :
    ∃ con', [0x41].foldlM (fun con c => cgaPutc c con) ⟨fun _ => 0, .cga, 1999, []⟩ = .ok con' ∧
      ∃ inside', (con'.terminal inside').cell ⟨23, by decide⟩ ⟨79, by decide⟩ = 0x0741 ∧
        (con'.terminal inside').cell ⟨24, by decide⟩ ⟨0, by decide⟩ = 0x0720 ∧
        (con'.terminal inside').row.val = 24 ∧ (con'.terminal inside').col.val = 0 := by
  obtain ⟨con', printed, ⟨inside', display⟩, -, -⟩ :=
    cgaPutc_terminal ⟨fun _ => 0, .cga, 1999, []⟩ (by decide) [0x41]
  refine ⟨con', printed, inside', ?_⟩
  rw [display]
  exact ⟨by decide, by decide, by decide, by decide⟩

end Jos
