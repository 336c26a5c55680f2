import Jos.Kern.CgaTerminal

/-!
# The cursor that the firmware left

`cga_init` takes the cursor of the display controller as it is. Past the end of the text buffer
`cga_putc` can only recover without a store: a carriage return scrolls the cursor up by a row,
a newline stays in its row unless the cursor wraps.
-/
namespace Jos

open Library

/-- `cga_init()`, where `present` is whether memory at `CGA_BUF` holds what is stored there, and
`high` and `low` are what the controller answers. -/
def cgaInit (present : Bool) (high low : BitVec 8) (mem : Mem) : Console :=
  let con : Console :=
    { mem, adapter := if present then .cga else .mono, crtPos := 0, out := [] }
  let addr := con.adapter.addr6845
  -- Extract cursor location
  let con := con.outb addr 14
  let pos := high.setWidth 32 <<< 8
  let con := con.outb addr 15
  let pos := pos ||| low.setWidth 32
  { con with crtPos := pos.setWidth 16 }

def isReturn (c : BitVec 32) : Bool := c.setWidth 8 = 13#8

/-- A character that moves the cursor and stores nothing. -/
def isMove (c : BitVec 32) : Bool := c.setWidth 8 = 10#8 ∨ c.setWidth 8 = 13#8

/-- Whether no store leaves the buffer, from the cursor `p` on: `p` is inside it, or nothing but
newlines and carriage returns is printed, or those that come first bring the cursor back, by a
row for each return or, from the last cells that a halfword can address, by wrapping; or they
bring it to the cell after the last one and a backspace follows. -/
def StaysInside (p : Nat) (text : List (BitVec 32)) : Prop :=
  p < CRT_SIZE ∨ text.all isMove ∨
    p / CRT_COLS < CRT_ROWS + (text.takeWhile isMove).countP isReturn ∨
    (65536 - CRT_COLS ≤ p ∧ ∃ c ∈ text.head?, c.setWidth 8 = 10#8) ∨
    (p / CRT_COLS = CRT_ROWS + (text.takeWhile isMove).countP isReturn ∧
      (p % CRT_COLS = 0 ∨ ∃ c ∈ text.head?, isMove c) ∧
      ∃ c ∈ (text.dropWhile isMove).head?, c.setWidth 8 = 8#8)

theorem cgaInit_crtPos (present : Bool) (high low : BitVec 8) (mem : Mem) :
    (cgaInit present high low mem).crtPos.toNat = 256 * high.toNat + low.toNat := by
  have pos : (cgaInit present high low mem).crtPos = high ++ low := by
    apply BitVec.eq_of_getLsbD_eq
    intro i inside
    rw [append_bit]
    simp only [cgaInit, BitVec.getLsbD_setWidth, BitVec.getLsbD_or, BitVec.getLsbD_shiftLeft]
    interval_cases i <;> simp
  have bound := low.isLt
  rw [pos, BitVec.toNat_append, Nat.shiftLeft_eq, Nat.mul_comm]
  exact (Nat.two_pow_add_eq_or_of_lt bound high.toNat).symm

/-! ### One character past the end -/

section Past

variable {con : Console} (consPutc : BitVec 32 → Console → Exec Console)

theorem scroll_crtPos (con : Console) : ∃ con', con.scroll = .ok con' ∧ con'.crtPos =
    if con.crtPos.toNat ≥ CRT_SIZE then con.crtPos - BitVec.ofNat 16 CRT_COLS else con.crtPos := by
  unfold Console.scroll
  by_cases past : con.crtPos.toNat ≥ CRT_SIZE
  · -- the row that is blanked is the last one of the buffer
    let moved := { con with
      mem := memmove (con.cellAddr 0) (con.cellAddr CRT_COLS)
        (BitVec.ofNat 32 ((CRT_SIZE - CRT_COLS) * 2)) con.mem }
    obtain ⟨con', blanked, -, -, pos⟩ :=
      @cells_blank CRT_COLS (CRT_SIZE - CRT_COLS) (by decide) moved _ fun _ => rfl
    rw [if_pos past, if_pos past]
    refine ⟨{ con' with crtPos := con'.crtPos - BitVec.ofNat 16 CRT_COLS }, ?_, ?_⟩
    · exact congrArg (· >>= _) blanked
    · exact congrArg (· - _) pos
  · rw [if_neg past, if_neg past]
    exact ⟨con, rfl, rfl⟩

/-- The cursor after the scroll. -/
theorem scrolled_toNat (p : BitVec 16) :
    (if p.toNat ≥ CRT_SIZE then p - BitVec.ofNat 16 CRT_COLS else p).toNat =
      if p.toNat ≥ 2000 then p.toNat - 80 else p.toNat := by
  have size : CRT_SIZE = 2000 := rfl
  rw [size]
  by_cases past : p.toNat ≥ 2000
  · have above : BitVec.ofNat 16 CRT_COLS ≤ p := by
      rw [BitVec.le_def]
      exact Nat.le_trans (by decide) past
    rw [if_pos past, if_pos past, BitVec.toNat_sub_of_le above]
    rfl
  · rw [if_neg past, if_neg past]

/-- What comes after the switch stores inside the buffer only. -/
theorem cgaPutcWith_switched {c : BitVec 32} {con₁ : Console}
    (switched : con.cgaSwitch consPutc (withAttribute c) = .ok con₁) :
    ∃ con', cgaPutcWith consPutc c con = .ok con' ∧ con'.crtPos.toNat =
      if con₁.crtPos.toNat ≥ 2000 then con₁.crtPos.toNat - 80 else con₁.crtPos.toNat := by
  obtain ⟨con₂, scrolled, pos⟩ := scroll_crtPos con₁
  refine ⟨con₂.moveCursor, ?_, ?_⟩
  · rw [cgaPutcWith, switched, Exec.ok_bind, scrolled]
    rfl
  · rw [← scrolled_toNat, ← pos]
    rfl

theorem cgaPutcWith_fault {c : BitVec 32}
    (switched : con.cgaSwitch consPutc (withAttribute c) = .error .outOfBounds) :
    cgaPutcWith consPutc c con = .error .outOfBounds := by
  rw [cgaPutcWith, switched, Exec.error_bind]

variable (past : CRT_SIZE ≤ con.crtPos.toNat)
include past

theorem newline_past {c : BitVec 32} (isNewline : c.setWidth 8 = 10#8) :
    ∃ con', cgaPutcWith consPutc c con = .ok con' ∧ con'.crtPos.toNat =
      if 65456 ≤ con.crtPos.toNat then 0 else con.crtPos.toNat / 80 * 80 := by
  have switched := cgaSwitch_eq consPutc c con
  rw [if_neg (by rw [isNewline]; decide), if_pos isNewline] at switched
  obtain ⟨con', printed, pos⟩ := cgaPutcWith_switched consPutc switched
  have next : (con.crtPos + BitVec.ofNat 16 CRT_COLS).toNat = (con.crtPos.toNat + 80) % 65536 :=
    BitVec.toNat_add _ _
  have row : (Console.ret { con with crtPos := con.crtPos + BitVec.ofNat 16 CRT_COLS }).crtPos.toNat =
      (con.crtPos.toNat + 80) % 65536 - (con.crtPos.toNat + 80) % 65536 % 80 := by
    rw [ret_toNat, next]
    rfl
  have size : CRT_SIZE = 2000 := rfl
  have bound := con.crtPos.isLt
  refine ⟨con', printed, ?_⟩
  rw [pos, row]
  by_cases wraps : 65456 ≤ con.crtPos.toNat
  · rw [if_neg (by omega), if_pos wraps]
    omega
  · rw [if_pos (by omega), if_neg wraps]
    omega

theorem return_past {c : BitVec 32} (isReturn : c.setWidth 8 = 13#8) :
    ∃ con', cgaPutcWith consPutc c con = .ok con' ∧
      con'.crtPos.toNat = (con.crtPos.toNat / 80 - 1) * 80 := by
  have switched := cgaSwitch_eq consPutc c con
  rw [if_neg (by rw [isReturn]; decide), if_neg (by rw [isReturn]; decide), if_pos isReturn]
    at switched
  obtain ⟨con', printed, pos⟩ := cgaPutcWith_switched consPutc switched
  have row : (Console.ret con).crtPos.toNat = con.crtPos.toNat - con.crtPos.toNat % 80 :=
    ret_toNat con
  have size : CRT_SIZE = 2000 := rfl
  refine ⟨con', printed, ?_⟩
  rw [pos, row, if_pos (by omega)]
  omega

/-- A backspace stores at the cell before the cursor. -/
theorem backspace_past {c : BitVec 32} (isBackspace : c.setWidth 8 = 8#8) :
    (con.crtPos.toNat = CRT_SIZE → ∃ con', cgaPutcWith consPutc c con = .ok con' ∧
        con'.crtPos.toNat < CRT_SIZE) ∧
      (con.crtPos.toNat ≠ CRT_SIZE → cgaPutcWith consPutc c con = .error .outOfBounds) := by
  have switched := cgaSwitch_eq consPutc c con
  have size : CRT_SIZE = 2000 := rfl
  have some : con.crtPos > 0 := by bv_omega
  have back : (con.crtPos - 1).toNat = con.crtPos.toNat - 1 := by bv_omega
  rw [if_pos isBackspace, if_pos some, Console.crtStore] at switched
  dsimp only at switched
  rw [back] at switched
  constructor
  · intro last
    rw [if_pos (by omega)] at switched
    obtain ⟨con', printed, pos⟩ := cgaPutcWith_switched consPutc switched
    dsimp only at pos
    rw [back, if_neg (by omega)] at pos
    exact ⟨con', printed, by omega⟩
  · intro further
    rw [if_neg (by omega)] at switched
    exact cgaPutcWith_fault consPutc switched

/-- Any other character but a tab is stored at the cursor. -/
theorem put_past {c : BitVec 32} (noMove : isMove c = false) (noBackspace : c.setWidth 8 ≠ 8#8)
    (noTab : c.setWidth 8 ≠ 9#8) : cgaPutcWith consPutc c con = .error .outOfBounds := by
  have switched := cgaSwitch_eq consPutc c con
  obtain ⟨noNewline, noReturn⟩ : c.setWidth 8 ≠ 10#8 ∧ c.setWidth 8 ≠ 13#8 := by
    simpa [isMove] using noMove
  rw [if_neg noBackspace, if_neg noNewline, if_neg noReturn, if_neg noTab, Console.crtStore,
    if_neg (Nat.not_lt.mpr past)] at switched
  exact cgaPutcWith_fault consPutc switched

/-- A tab begins with a blank. -/
theorem store_past {c : BitVec 32} (noMove : isMove c = false) (noBackspace : c.setWidth 8 ≠ 8#8) :
    cgaPutc c con = .error .outOfBounds := by
  by_cases isTab : c.setWidth 8 = 9#8
  · have switched := cgaSwitch_eq (consPutcNested 1) c con
    have past' : CRT_SIZE ≤ ((con.serialPutc 0x20).lptPutc 0x20).crtPos.toNat := past
    have blank : consPutcNested 1 0x20 con = .error .outOfBounds :=
      put_past _ past' (by decide) (by decide) (by decide)
    rw [if_neg noBackspace, if_neg (by rw [isTab]; decide), if_neg (by rw [isTab]; decide),
      if_pos isTab, blank, Exec.error_bind] at switched
    exact cgaPutcWith_fault _ switched
  · exact put_past _ past noMove noBackspace isTab

end Past

/-! ### What the first character does to the condition -/

section Condition

variable {p : Nat} {c : BitVec 32} {text : List (BitVec 32)}

theorem staysInside_iff (past : 2000 ≤ p) : StaysInside p text ↔
    text.all isMove ∨ p / 80 < 25 + (text.takeWhile isMove).countP isReturn ∨
      (65456 ≤ p ∧ ∃ c ∈ text.head?, c.setWidth 8 = 10#8) ∨
      (p / 80 = 25 + (text.takeWhile isMove).countP isReturn ∧
        (p % 80 = 0 ∨ ∃ c ∈ text.head?, isMove c) ∧
        ∃ c ∈ (text.dropWhile isMove).head?, c.setWidth 8 = 8#8) := by
  have size : CRT_SIZE = 2000 := rfl
  have cols : CRT_COLS = 80 := rfl
  have rows : CRT_ROWS = 25 := rfl
  have outside : ¬p < 2000 := Nat.not_lt.mpr past
  simp only [StaysInside, size, cols, rows, outside, false_or]

theorem staysInside_newline (past : 2000 ≤ p) (bound : p < 65536)
    (isNewline : c.setWidth 8 = 10#8) :
    StaysInside p (c :: text) ↔ StaysInside (if 65456 ≤ p then 0 else p / 80 * 80) text := by
  have move : isMove c = true := by simp [isMove, isNewline]
  have stays : isReturn c = false := by simp [isReturn, isNewline]
  rw [staysInside_iff past]
  simp only [List.all_cons, move, Bool.true_and, List.takeWhile_cons_of_pos,
    List.countP_cons_of_neg, stays, Bool.false_eq_true, not_false_eq_true, List.head?_cons,
    Option.mem_some_iff, exists_eq_left', isNewline, List.dropWhile_cons_of_pos, or_true, true_and,
    and_true]
  by_cases wraps : 65456 ≤ p
  · rw [if_pos wraps]
    exact ⟨fun _ => .inl (by decide), fun _ => .inr (.inr (.inl wraps))⟩
  · rw [if_neg wraps, staysInside_iff (by omega)]
    have row : p / 80 * 80 / 80 = p / 80 := by omega
    have first : p / 80 * 80 % 80 = 0 := by omega
    have far : ¬65456 ≤ p / 80 * 80 := by omega
    simp only [wraps, row, first, far, false_and, false_or, true_or, true_and]

theorem staysInside_return (past : 2000 ≤ p) (bound : p < 65536) (returns : c.setWidth 8 = 13#8) :
    StaysInside p (c :: text) ↔ StaysInside ((p / 80 - 1) * 80) text := by
  have move : isMove c = true := by simp [isMove, returns]
  have goes : isReturn c = true := by simp [isReturn, returns]
  have noNewline : c.setWidth 8 ≠ 10#8 := by rw [returns]; decide
  rw [staysInside_iff past]
  simp only [List.all_cons, move, Bool.true_and, List.takeWhile_cons_of_pos,
    List.countP_cons_of_pos, goes, List.head?_cons, Option.mem_some_iff, exists_eq_left',
    noNewline, List.dropWhile_cons_of_pos, or_true, true_and, and_false, false_or]
  by_cases last : p / 80 = 25
  · have inside : (p / 80 - 1) * 80 < CRT_SIZE := by rw [last]; decide
    exact ⟨fun _ => .inl inside, fun _ => .inr (.inl (by omega))⟩
  · rw [staysInside_iff (by omega)]
    have row : (p / 80 - 1) * 80 / 80 = p / 80 - 1 := by omega
    have first : (p / 80 - 1) * 80 % 80 = 0 := by omega
    have far : ¬65456 ≤ (p / 80 - 1) * 80 := by omega
    have less : p / 80 - 1 < 25 + (text.takeWhile isMove).countP isReturn ↔
        p / 80 < 25 + ((text.takeWhile isMove).countP isReturn + 1) := by omega
    have same : p / 80 - 1 = 25 + (text.takeWhile isMove).countP isReturn ↔
        p / 80 = 25 + ((text.takeWhile isMove).countP isReturn + 1) := by omega
    simp only [row, first, far, less, same, false_and, false_or, true_or, true_and]

theorem staysInside_other (past : 2000 ≤ p) (bound : p < 65536) (noMove : isMove c = false) :
    StaysInside p (c :: text) ↔ p = 2000 ∧ c.setWidth 8 = 8#8 := by
  have noNewline : c.setWidth 8 ≠ 10#8 := by
    intro isNewline
    simp [isMove, isNewline] at noMove
  have row : ¬p / 80 < 25 := by omega
  have first : p / 80 = 25 ∧ p % 80 = 0 ↔ p = 2000 := by omega
  rw [staysInside_iff past]
  simp [noMove, noNewline, row, ← first, and_assoc]

end Condition

/-! ### Any text -/

theorem cgaPutc_stays_iff (text : List (BitVec 32)) (con : Console) :
    (∃ con', text.foldlM (fun con c => cgaPutc c con) con = .ok con') ↔
      StaysInside con.crtPos.toNat text := by
  induction text generalizing con with
  | nil => exact ⟨fun _ => .inr (.inl rfl), fun _ => ⟨con, rfl⟩⟩
  | cons c text ih =>
    by_cases inside : con.crtPos.toNat < CRT_SIZE
    · obtain ⟨con', printed, -⟩ := cgaPutc_run (c :: text) (shows_screen inside)
      exact ⟨fun _ => .inl inside, fun _ => ⟨con', printed⟩⟩
    have past : CRT_SIZE ≤ con.crtPos.toNat := Nat.le_of_not_lt inside
    have bound := con.crtPos.isLt
    rw [List.foldlM_cons]
    by_cases isNewline : c.setWidth 8 = 10#8
    · obtain ⟨con₁, printed, pos⟩ := newline_past (consPutcNested 1) past isNewline
      rw [cgaPutc, printed, Exec.ok_bind, ih, pos, staysInside_newline past bound isNewline]
    by_cases returns : c.setWidth 8 = 13#8
    · obtain ⟨con₁, printed, pos⟩ := return_past (consPutcNested 1) past returns
      rw [cgaPutc, printed, Exec.ok_bind, ih, pos, staysInside_return past bound returns]
    have noMove : isMove c = false := by simp [isMove, isNewline, returns]
    rw [staysInside_other past bound noMove]
    by_cases isBackspace : c.setWidth 8 = 8#8
    · obtain ⟨back, fault⟩ := backspace_past (consPutcNested 1) past isBackspace
      by_cases last : con.crtPos.toNat = CRT_SIZE
      · obtain ⟨con₁, printed, inside₁⟩ := back last
        obtain ⟨con', rest, -⟩ := cgaPutc_run text (shows_screen inside₁)
        rw [cgaPutc, printed, Exec.ok_bind]
        exact ⟨fun _ => ⟨last, isBackspace⟩, fun _ => ⟨con', rest⟩⟩
      · rw [cgaPutc, fault last, Exec.error_bind]
        constructor
        · rintro ⟨_, printed⟩
          cases printed
        · rintro ⟨here, -⟩
          exact absurd here last
    · rw [store_past past noMove isBackspace, Exec.error_bind]
      constructor
      · rintro ⟨_, printed⟩
        cases printed
      · rintro ⟨-, here⟩
        exact absurd here isBackspace

/-- No store leaves the buffer exactly when the firmware's cursor is inside it, or the text
brings it back before anything is stored. -/
theorem cgaInit_stays_iff (present : Bool) (high low : BitVec 8) (mem : Mem)
    (text : List (BitVec 32)) :
    (∃ con, text.foldlM (fun con c => cgaPutc c con) (cgaInit present high low mem) = .ok con) ↔
      StaysInside (256 * high.toNat + low.toNat) text := by
  rw [cgaPutc_stays_iff, cgaInit_crtPos]

/-- A cursor just past the buffer, and a letter. -/
theorem cgaInit_stays_letter :
    ¬∃ con, [0x41].foldlM (fun con c => cgaPutc c con) (cgaInit true 0x07 0xD0 fun _ => 0) =
      .ok con := by
  rw [cgaPutc_stays_iff, cgaInit_crtPos]
  simp [StaysInside, isMove, CRT_SIZE, CRT_ROWS, CRT_COLS]

end Jos
