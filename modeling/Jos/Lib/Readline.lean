import Jos.Kern.Printf

/-!
# lib/readline.c

The characters that `getchar` delivers come from a list; when it is used up, `readline` is
still reading. Every turn of the loop follows an abstract line editor: the buffer up to `i` is
the edited line, and so are the cells before the cursor.
-/
namespace Jos

open Library

def BUFLEN : Nat := 1024

def iscons (_fdnum : Int) : Int := 1

/-- The locals of `readline`, its buffer and the console. -/
structure Editor where
  i : Int
  buf : List UInt8
  con : Console

/-- How far `readline` has come: it waits for a character, or it has returned the buffer or
the null pointer. -/
inductive Reading where
  | waiting (ed : Editor)
  | line (ed : Editor)
  | null (ed : Editor)

namespace Editor

def echo (echoing c : Int) (ed : Editor) : Exec Editor :=
  if echoing ≠ 0 then do
    let con ← cputchar c ed.con
    pure { ed with con }
  else pure ed

/-- One turn of the loop. -/
def read (echoing c : Int) (ed : Editor) : Exec Reading :=
  if c < 0 then do
    let (_, con) ← cprintf (literal "read error: %e\n" ++ [0]) [.word (.ofInt 32 c)] ed.con
    pure (.null { ed with con })
  else if (c = ord '\x08' ∨ c = ord '\x7f') ∧ ed.i > 0 then do
    let ed ← ed.echo echoing (ord '\x08')
    pure (.waiting { ed with i := ed.i - 1 })
  else if c ≥ ord ' ' ∧ ed.i < BUFLEN - 1 then do
    let ed ← ed.echo echoing c
    let buf ← writeAt ed.buf ed.i (UInt8.ofInt c)
    pure (.waiting { ed with buf, i := ed.i + 1 })
  else if c = ord '\n' ∨ c = ord '\r' then do
    let ed ← ed.echo echoing (ord '\n')
    let buf ← writeAt ed.buf ed.i 0
    pure (.line { ed with buf })
  else pure (.waiting ed)

def readAll (echoing : Int) : List Int → Editor → Exec Reading
  | [], ed => pure (.waiting ed)
  | c :: input, ed => do
    match ← ed.read echoing c with
    | .waiting ed => readAll echoing input ed
    | returned => pure returned

end Editor

/-- Any address but null does for a prompt. -/
def readline (prompt : Option CString) (buf : List UInt8) (input : List Int) (con : Console) :
    Exec Reading := do
  let con ← match prompt with
    | some s => (·.2) <$> cprintf (literal "%s" ++ [0]) [.ptr 1 s.object] con
    | none => pure con
  Editor.readAll (iscons 0) input { i := 0, buf, con }

/-! ### What a character shows -/

theorem low_byte_ne {c : BitVec 32} (low : 32 ≤ c.toNat) (high : c.toNat < 256) {k : BitVec 8}
    (control : k.toNat < 32) : c.setWidth 8 ≠ k := by
  rintro rfl
  rw [BitVec.toNat_setWidth] at control
  omega

theorem typed_printable {c : BitVec 32} (low : 32 ≤ c.toNat) (high : c.toNat < 256) :
    typed c = [.put (cellOf c (c.setWidth 8))] := by
  unfold typed
  rw [if_neg (low_byte_ne low high (by decide)), if_neg (low_byte_ne low high (by decide)),
    if_neg (low_byte_ne low high (by decide)), if_neg (low_byte_ne low high (by decide))]

/-- The byte of a cell. -/
def charOf (k : Cell) : UInt8 := UInt8.ofBitVec (k.setWidth 8)

theorem charOf_cellOf (c : BitVec 32) (ch : BitVec 8) : charOf (cellOf c ch) = UInt8.ofBitVec ch := by
  have low : (cellOf c ch).setWidth 8 = ch := by
    apply BitVec.eq_of_getLsbD_eq
    intro i inside
    simp [cellOf, append_bit, inside]
  rw [charOf, low]

theorem word_toNat {c : Int} (low : 0 ≤ c) (high : c < 256) :
    (BitVec.ofInt 32 c).toNat = c.toNat := by
  rw [BitVec.toNat_ofInt]
  omega

theorem charOf_printed {c : Int} (low : 0 ≤ c) (high : c < 256) :
    UInt8.ofBitVec ((BitVec.ofInt 32 c).setWidth 8) = UInt8.ofInt c := by
  apply UInt8.toNat_inj.mp
  have value := toNat_ofInt c
  rw [UInt8.toNat_ofBitVec, BitVec.toNat_setWidth, word_toNat low high]
  omega

theorem ofInt_ne_zero {c : Int} (low : 1 ≤ c) (high : c < 256) : UInt8.ofInt c ≠ 0 := by
  intro zero
  have value := toNat_ofInt c
  rw [zero] at value
  simp at value
  omega

/-! ### The line that is edited -/

/-- What a character does to the line. -/
def edit (chars : List UInt8) (c : Int) : List UInt8 :=
  if (c = ord '\x08' ∨ c = ord '\x7f') ∧ chars ≠ [] then chars.dropLast
  else if c ≥ ord ' ' ∧ chars.length < BUFLEN - 1 then chars ++ [UInt8.ofInt c]
  else chars

/-- The buffer up to `i` and the cells before the cursor are both the line. -/
structure Follows (ed : Editor) (chars : List UInt8) : Prop where
  index : ed.i = chars.length
  size : ed.buf.length = BUFLEN
  short : chars.length < BUFLEN
  stored : ed.buf.take chars.length = chars
  noNul : 0 ∉ chars
  screen : ∃ s, Shows ed.con s ∧ s.Trail charOf chars

theorem echo_shows {ed : Editor} {s : CrtScreen} (c : Int) (shows : Shows ed.con s) :
    ∃ con', ed.echo (iscons 0) c = .ok { ed with con := con' } ∧
      Shows con' ((typed (.ofInt 32 c)).foldl (Screen.act blankCell) s) := by
  obtain ⟨con', printed, displayed⟩ := consPutc_shows (.ofInt 32 c) shows
  refine ⟨con', ?_, displayed.shows⟩
  rw [Editor.echo, if_pos (by decide), cputchar, printed]
  rfl

section Turn

variable {ed : Editor} {chars : List UInt8} {c : Int}

theorem noErase_of_keep (index : ed.i = chars.length)
    (keep : ¬((c = ord '\x08' ∨ c = ord '\x7f') ∧ chars ≠ [])) :
    ¬((c = ord '\x08' ∨ c = ord '\x7f') ∧ ed.i > 0) := by
  rintro ⟨erase, positive⟩
  refine keep ⟨erase, ?_⟩
  rintro rfl
  simp [index] at positive

theorem read_erase {b : UInt8} (follows : Follows ed (chars ++ [b]))
    (erase : c = ord '\x08' ∨ c = ord '\x7f') :
    ∃ ed', ed.read (iscons 0) c = .ok (.waiting ed') ∧ Follows ed' chars := by
  obtain ⟨index, size, short, stored, noNul, s, shows, trail⟩ := follows
  rw [List.length_append, List.length_singleton] at index short stored
  obtain ⟨con', echoed, shows'⟩ := echo_shows (ord '\x08') shows
  have nonneg : ¬c < 0 := by rcases erase with rfl | rfl <;> decide
  -- there is a character to erase
  have some : (c = ord '\x08' ∨ c = ord '\x7f') ∧ ed.i > 0 := ⟨erase, by omega⟩
  refine ⟨{ ed with i := ed.i - 1, con := con' }, ?_, ?_⟩
  · rw [Editor.read, if_neg nonneg, if_pos some, echoed]
    rfl
  · refine ⟨by dsimp only; omega, size, by omega, ?_, ?_, _, shows', ?_⟩
    · have shorter := congrArg (List.take chars.length) stored
      rwa [List.take_take, Nat.min_eq_left (by omega), List.take_left] at shorter
    · exact fun member => noNul (List.mem_append_left _ member)
    · exact Screen.trail_backspace _ trail

theorem read_insert (follows : Follows ed chars) (low : 32 ≤ c) (high : c < 256)
    (room : chars.length < BUFLEN - 1)
    (keep : ¬((c = ord '\x08' ∨ c = ord '\x7f') ∧ chars ≠ [])) :
    ∃ ed', ed.read (iscons 0) c = .ok (.waiting ed') ∧ Follows ed' (chars ++ [UInt8.ofInt c]) := by
  obtain ⟨index, size, short, stored, noNul, s, shows, trail⟩ := follows
  obtain ⟨con', echoed, shows'⟩ := echo_shows c shows
  have word := word_toNat (show 0 ≤ c by omega) high
  -- the longest line is shorter than the rows that a scroll keeps
  have cols : chars.length + CRT_COLS < CRT_ROWS * CRT_COLS := by
    have : BUFLEN = 1024 := rfl
    have : CRT_COLS = 80 := rfl
    have : CRT_ROWS * CRT_COLS = 2000 := rfl
    omega
  have trail' := Screen.trail_put blankCell
    (cellOf (.ofInt 32 c) ((BitVec.ofInt 32 c).setWidth 8)) trail cols
  rw [charOf_cellOf, charOf_printed (by omega) high] at trail'
  rw [typed_printable (by omega) (by omega)] at shows'
  have nonneg : ¬c < 0 := by omega
  -- a DEL is inserted when there is nothing to erase
  have noErase := noErase_of_keep index keep
  have insert : c ≥ ord ' ' ∧ ed.i < BUFLEN - 1 := ⟨low, by omega⟩
  have written : writeAt ed.buf ed.i (UInt8.ofInt c) =
      .ok (ed.buf.set chars.length (UInt8.ofInt c)) := by
    rw [writeAt, if_pos (by omega), index, Int.toNat_natCast]
  refine ⟨{ i := ed.i + 1, buf := ed.buf.set chars.length (UInt8.ofInt c), con := con' }, ?_, ?_⟩
  · rw [Editor.read, if_neg nonneg, if_neg noErase, if_pos insert, echoed, Exec.ok_bind, written]
    rfl
  · have inside : chars.length < ed.buf.length := by omega
    refine ⟨?_, ?_, ?_, ?_, ?_, _, shows', trail'⟩
    · rw [List.length_append, List.length_singleton]
      dsimp only
      omega
    · rw [List.length_set, size]
    · rw [List.length_append, List.length_singleton]
      omega
    · rw [List.length_append, List.length_singleton, List.take_set,
        List.take_succ_eq_append_getElem inside, stored]
      simp
    · rw [List.mem_append, not_or, List.mem_singleton]
      exact ⟨noNul, (ofInt_ne_zero (by omega) high).symm⟩

/-- Before the line ends, a turn does to the buffer and to the screen what `edit` does. -/
theorem read_follows (follows : Follows ed chars) (low : 1 ≤ c) (high : c ≤ 255)
    (noEnd : c ≠ ord '\n' ∧ c ≠ ord '\r') :
    ∃ ed', ed.read (iscons 0) c = .ok (.waiting ed') ∧ Follows ed' (edit chars c) := by
  unfold edit
  split
  · next erase =>
    obtain rfl | ⟨rest, b, rfl⟩ := List.eq_nil_or_concat' chars
    · exact absurd rfl erase.2
    · rw [List.dropLast_concat]
      exact read_erase follows erase.1
  · next keep =>
    split
    · next insert => exact read_insert follows insert.1 (by omega) insert.2 keep
    · next ignored =>
      have index := follows.index
      have nonneg : ¬c < 0 := by omega
      -- a control character, or one that no longer fits
      have noErase := noErase_of_keep index keep
      have noInsert : ¬(c ≥ ord ' ' ∧ ed.i < BUFLEN - 1) := by
        rintro ⟨printable, room⟩
        exact ignored ⟨printable, by omega⟩
      refine ⟨ed, ?_, follows⟩
      rw [Editor.read, if_neg nonneg, if_neg noErase, if_neg noInsert, if_neg (by tauto)]
      rfl

theorem read_return (follows : Follows ed chars) (ends : c = ord '\n' ∨ c = ord '\r') :
    ∃ con', ed.read (iscons 0) c =
      .ok (.line { ed with buf := ed.buf.set ed.i.toNat 0, con := con' }) := by
  obtain ⟨index, size, short, -, -, s, shows, -⟩ := follows
  obtain ⟨con', echoed, -⟩ := echo_shows (ord '\n') shows
  have nonneg : ¬c < 0 := by rcases ends with rfl | rfl <;> decide
  have noErase : ¬((c = ord '\x08' ∨ c = ord '\x7f') ∧ ed.i > 0) := by
    rcases ends with rfl | rfl <;> simp [ord]
  have noInsert : ¬(c ≥ ord ' ' ∧ ed.i < BUFLEN - 1) := by
    rcases ends with rfl | rfl <;> simp [ord]
  have written : writeAt ed.buf ed.i 0 = .ok (ed.buf.set ed.i.toNat 0) :=
    if_pos (by omega)
  refine ⟨con', ?_⟩
  rw [Editor.read, if_neg nonneg, if_neg noErase, if_neg noInsert, if_pos ends, echoed,
    Exec.ok_bind, written]
  rfl

end Turn

/-- Characters that do not end the line. -/
def MidLine (input : List Int) : Prop :=
  ∀ c ∈ input, (1 ≤ c ∧ c ≤ 255) ∧ c ≠ ord '\n' ∧ c ≠ ord '\r'

instance (input : List Int) : Decidable (MidLine input) :=
  inferInstanceAs (Decidable (∀ c ∈ input, _))

theorem readAll_follows {ed : Editor} {chars : List UInt8} (follows : Follows ed chars)
    {input : List Int} (midLine : MidLine input) :
    ∃ ed', Follows ed' (input.foldl edit chars) ∧ ∀ rest,
      ed.readAll (iscons 0) (input ++ rest) = ed'.readAll (iscons 0) rest := by
  induction input generalizing ed chars with
  | nil => exact ⟨ed, follows, fun _ => rfl⟩
  | cons c input ih =>
    obtain ⟨⟨low, high⟩, noEnd⟩ := midLine c (List.mem_cons_self ..)
    obtain ⟨ed₁, turn, follows₁⟩ := read_follows follows low high noEnd
    obtain ⟨ed', follows', run⟩ := ih follows₁ fun c member =>
      midLine c (List.mem_cons_of_mem _ member)
    refine ⟨ed', follows', ?_⟩
    intro rest
    rw [List.cons_append, Editor.readAll, turn]
    exact run rest

/-! ### The screen shows the buffer -/

/-- `i` is inside the buffer and not left of the screen, and the characters of the `i` cells
before the cursor are those of the buffer. -/
structure Mirrors (ed : Editor) : Prop where
  index : 0 ≤ ed.i ∧ ed.i ≤ BUFLEN - 1
  inside : ed.con.crtPos.toNat < CRT_SIZE
  cursor : ed.i ≤ ed.con.crtPos.toNat
  cells : ∀ k : Nat, k < ed.i → ed.buf[k]? =
    some (charOf (load16 ed.con.mem (ed.con.cellAddr (ed.con.crtPos.toNat - ed.i.toNat + k))))

/-- The NUL at index `i` is inside the buffer and the first one. -/
structure Terminated (ed : Editor) : Prop where
  inside : 0 ≤ ed.i ∧ ed.i < BUFLEN ∧ ed.buf.length = BUFLEN
  nul : ed.buf[ed.i.toNat]? = some 0
  first : ∀ k : Nat, k < ed.i → ed.buf[k]? ≠ some 0

section Line

variable {ed : Editor} {chars : List UInt8}

theorem Follows.buf_eq (follows : Follows ed chars) {k : Nat} (inside : k < chars.length) :
    ed.buf[k]? = chars[k]? := by
  conv_rhs => rw [← follows.stored]
  exact (List.getElem?_take_of_lt inside).symm

theorem Follows.mirrors (follows : Follows ed chars) : Mirrors ed := by
  obtain ⟨s, shows, before, cells⟩ := follows.screen
  have index := follows.index
  have short := follows.short
  have pos := shows.pos
  refine ⟨⟨by omega, by omega⟩, shows.bound, by omega, ?_⟩
  intro k inside
  have bound := s.pos.isLt
  have place : ed.con.crtPos.toNat - ed.i.toNat + k < CRT_ROWS * CRT_COLS := by omega
  rw [follows.buf_eq (by omega), shows.cell ⟨_, place⟩]
  exact cells k ⟨_, place⟩ (by omega) (by dsimp only; omega)

theorem Follows.terminated (follows : Follows ed chars) (con : Console) :
    Terminated { ed with buf := ed.buf.set ed.i.toNat 0, con } := by
  have index := follows.index
  have short := follows.short
  have size := follows.size
  refine ⟨⟨by dsimp only; omega, by dsimp only; omega, by rw [List.length_set, size]⟩, ?_, ?_⟩
  · exact List.getElem?_set_self (by omega)
  · intro k below
    dsimp only at below ⊢
    rw [List.getElem?_set_ne (by omega), follows.buf_eq (by omega)]
    exact fun nul => follows.noNul (List.mem_of_getElem? nul)

end Line

/-- The prompt leaves some screen, and no character of the line on it. -/
theorem readline_started (prompt : Option CString) {buf : List UInt8} (size : buf.length = BUFLEN)
    {con : Console} (inside : con.crtPos.toNat < CRT_SIZE) :
    ∃ ed, Follows ed [] ∧ ∀ input, readline prompt buf input con =
      Editor.readAll (iscons 0) input ed := by
  have empty : ∀ con₀ s, Shows con₀ s → Follows ⟨0, buf, con₀⟩ [] := fun con₀ s shows =>
    ⟨rfl, size, by decide, rfl, List.not_mem_nil, s, shows, Nat.zero_le _, fun _ _ none => by
      exact absurd none (Nat.not_lt_zero _)⟩
  cases prompt with
  | none => exact ⟨_, empty con _ (shows_screen inside), fun _ => rfl⟩
  | some s =>
    obtain ⟨con₀, printed, shows, -⟩ :=
      cprintf_shows (by decide) (@formatText_string s 1 (by decide)) (shows_screen inside)
    refine ⟨_, empty con₀ _ shows, ?_⟩
    intro input
    rw [readline, printed]
    rfl

/-- While a line is typed the cells before the cursor are what is in the buffer, across wraps,
scrolls and erasures, and the character that ends the line terminates the buffer at `i`. -/
theorem readline_mirrors (prompt : Option CString) {buf : List UInt8} (size : buf.length = BUFLEN)
    {con : Console} (inside : con.crtPos.toNat < CRT_SIZE) {input : List Int}
    (midLine : MidLine input) :
    ∃ ed, readline prompt buf input con = .ok (.waiting ed) ∧ Mirrors ed ∧
      ∀ c rest, c = ord '\n' ∨ c = ord '\r' → ∃ con',
        let ed' := { ed with buf := ed.buf.set ed.i.toNat 0, con := con' }
        readline prompt buf (input ++ c :: rest) con = .ok (.line ed') ∧ Terminated ed' := by
  obtain ⟨ed₀, empty, started⟩ := readline_started prompt size inside
  obtain ⟨ed, follows, run⟩ := readAll_follows empty midLine
  refine ⟨ed, ?_, follows.mirrors, ?_⟩
  · have waiting := run []
    rw [List.append_nil] at waiting
    rw [started, waiting]
    rfl
  · intro c rest ends
    obtain ⟨con', returned⟩ := read_return follows ends
    refine ⟨con', ?_, follows.terminated con'⟩
    rw [started, run, Editor.readAll, returned]
    rfl

/-- Typed from the last cell on, so that the screen scrolls under the line. -/
theorem readline_mirrors_lastCell :
    ∃ ed, readline none (List.replicate 1024 0) [0x68, 0x80, 8, 0x69] ⟨fun _ => 0, .cga, 1999, []⟩ =
      .ok (.waiting ed) ∧ Mirrors ed := by
  obtain ⟨ed, waiting, mirrors, -⟩ :=
    @readline_mirrors none (List.replicate 1024 0) List.length_replicate
      ⟨fun _ => 0, .cga, 1999, []⟩ (by decide) [0x68, 0x80, 8, 0x69] (by decide)
  exact ⟨ed, waiting, mirrors⟩

end Jos
