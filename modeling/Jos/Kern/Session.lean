import Jos.Kern.CommandReply
import Jos.Lib.LineEditor

/-!
# A session with the kernel monitor

`monitor` on the characters that `getchar` delivers, and the dialogue that a user has with it.
The screen shows the dialogue, for every input.
-/
namespace Jos

open Library

/-! ### monitor -/

/-- `readline` from inside its loop, with the input that it leaves. -/
def Editor.readRest (echoing : Int) : List Int → Editor → Exec (Reading × List Int)
  | [], ed => pure (.waiting ed, [])
  | c :: input, ed => do
    match ← ed.read echoing c with
    | .waiting ed => readRest echoing input ed
    | returned => pure (returned, input)

/-- `readline` with the input that it leaves. -/
def readlineRest (prompt : Option CString) (buf : List UInt8) (input : List Int) (con : Console) :
    Exec (Reading × List Int) := do
  let con ← match prompt with
    | some s => (·.2) <$> cprintf (literal "%s" ++ [0]) [.ptr 1 s.object] con
    | none => pure con
  Editor.readRest (iscons 0) input { i := 0, buf, con }

/-- How far `monitor` has come: it is in `readline` for the line with this number, or it has
returned and left the rest of the input. -/
inductive Monitor where
  | reading (line : Nat) (ed : Editor)
  | returned (line : Nat) (rest : List Int) (buf : List UInt8) (con : Console)

def monitorPrompt : CString := ⟨literal "K> ", by decide +kernel, by decide +kernel⟩

variable (k : Kernel)

/-- The loop of `monitor`, with the stack at each command line. -/
def Kernel.monitorLoop (stack : Nat → CommandStack k.symbols) :
    Nat → Nat → List Int → List UInt8 → Console → Exec Monitor
  | 0, _, _, _, _ => .error .outOfFuel
  | fuel + 1, line, input, buf, con => do
    match ← readlineRest (some monitorPrompt) buf input con with
    | (.waiting ed, _) => pure (.reading line ed)
    | (.null ed, rest) => monitorLoop stack fuel line rest ed.buf ed.con
    | (.line ed, rest) => do
      let (r, buf, con) ← k.runcmd (stack line) ed.buf ed.con
      if r < 0 then pure (.returned (line + 1) rest buf con)
      else monitorLoop stack fuel (line + 1) rest buf con

/-- `monitor` on this input, from the command line with this number on; every call of `readline`
but the last uses up a character. -/
def Kernel.monitor (stack : Nat → CommandStack k.symbols) (line : Nat) (input : List Int)
    (buf : List UInt8) (con : Console) : Exec Monitor := do
  let (_, con) ← cprintf (literal "Welcome to the JOS kernel monitor!\n" ++ [0]) [] con
  let (_, con) ← cprintf (literal "Type 'help' for a list of commands.\n" ++ [0]) [] con
  k.monitorLoop stack (input.length + 1) line input buf con

/-! ### The dialogue -/

/-- What a character that is typed shows. -/
def echoText (chars : List UInt8) (c : Int) : List Int :=
  if (c = BS ∨ c = DEL) ∧ chars ≠ [] then [BS]
  else if c ≥ ord ' ' ∧ chars.length < BUFLEN - 1 then [c]
  else []

def promptText : List Int := plainText (literal "K> ")

/-- From the line with this number on, of which `chars` have been typed. -/
def Kernel.dialogue (stack : Nat → CommandStack k.symbols) : Nat → List UInt8 → List Int → List Int
  | _, _, [] => []
  | line, chars, c :: input =>
    if c = ord '\n' ∨ c = ord '\r' then
      ord '\n' :: k.replyText (stack line) (reply chars) ++ promptText ++
        dialogue stack (line + 1) [] input
    else echoText chars c ++ dialogue stack line (edit chars c) input

/-- The whole session. -/
def Kernel.sessionText (stack : Nat → CommandStack k.symbols) (input : List Int) : List Int :=
  plainText (literal "Welcome to the JOS kernel monitor!\n") ++
    plainText (literal "Type 'help' for a list of commands.\n") ++ promptText ++
    k.dialogue stack 0 [] input

/-- The line that is being typed after an input. -/
def typedLine (chars : List UInt8) : List Int → List UInt8
  | [] => chars
  | c :: input =>
    if c = ord '\n' ∨ c = ord '\r' then typedLine [] input else typedLine (edit chars c) input

/-- `readlineRest` is `readline`. -/
theorem readRest_fst (echoing : Int) (input : List Int) (ed : Editor) :
    Prod.fst <$> ed.readRest echoing input = ed.readAll echoing input := by
  induction input generalizing ed with
  | nil => rfl
  | cons c input ih =>
    rw [Editor.readRest, Editor.readAll, map_bind]
    refine bind_congr fun reading => ?_
    cases reading with
    | waiting ed => exact ih ed
    | line ed => rfl
    | null ed => rfl

theorem readlineRest_fst (prompt : Option CString) (buf : List UInt8) (input : List Int)
    (con : Console) : Prod.fst <$> readlineRest prompt buf input con =
      readline prompt buf input con := by
  unfold readlineRest readline
  cases prompt with
  | none => exact readRest_fst _ input _
  | some s =>
    dsimp only
    rw [map_bind]
    exact bind_congr fun con => readRest_fst _ input _

/-! ### A character -/

theorem echo_prints {ed : Editor} {s : CrtScreen} (c : Int) (shows : Shows ed.con s) :
    ∃ con', ed.echo (iscons 0) c = .ok { ed with con := con' } ∧
      Shows con' ((typedText [c]).foldl (Screen.act blankCell) s) ∧ Kept ed.con con' := by
  obtain ⟨con', printed, displayed⟩ := consPutc_shows (.ofInt 32 c) shows
  have text : typedText [c] = typed (.ofInt 32 c) := by simp [typedText]
  refine ⟨con', ?_, by rw [text]; exact displayed.shows, displayed.kept⟩
  rw [Editor.echo, if_pos (by decide), cputchar, printed]
  rfl

section Character

variable {ed : Editor} {chars : List UInt8} {c : Int} {s : CrtScreen}

/-- A character in the line: the next state of the editor is the one that follows the edited
line, and its screen has the echo. -/
theorem read_echoes (follows : Follows ed chars) (shows : Shows ed.con s) (low : 1 ≤ c)
    (high : c ≤ 255) (noEnd : c ≠ ord '\n' ∧ c ≠ ord '\r') :
    ∃ ed', ed.read (iscons 0) c = .ok (.waiting ed') ∧ Follows ed' (edit chars c) ∧
      Shows ed'.con ((typedText (echoText chars c)).foldl (Screen.act blankCell) s) ∧
      Kept ed.con ed'.con := by
  obtain ⟨ed', turn, follows'⟩ := read_follows follows low high noEnd
  refine ⟨ed', turn, follows', ?_⟩
  have index := follows.index
  have nonneg : ¬c < 0 := by omega
  rw [Editor.read, if_neg nonneg] at turn
  unfold echoText
  by_cases erase : (c = BS ∨ c = DEL) ∧ chars ≠ []
  · have positive : (c = ord '\x08' ∨ c = ord '\x7f') ∧ ed.i > 0 := by
      have := List.length_pos_iff.mpr erase.2
      exact ⟨erase.1, by omega⟩
    obtain ⟨con', echoed, shows', kept⟩ := echo_prints BS shows
    rw [if_pos positive, show ord '\x08' = BS from rfl, echoed] at turn
    cases turn
    rw [if_pos erase]
    exact ⟨shows', kept⟩
  · have noErase := noErase_of_keep index erase
    rw [if_neg noErase] at turn
    rw [if_neg erase]
    by_cases insert : c ≥ ord ' ' ∧ chars.length < BUFLEN - 1
    · have room : c ≥ ord ' ' ∧ ed.i < BUFLEN - 1 := ⟨insert.1, by omega⟩
      obtain ⟨con', echoed, shows', kept⟩ := echo_prints c shows
      rw [if_pos room, echoed, Exec.ok_bind] at turn
      obtain ⟨buf, written, turn⟩ := Exec.bind_eq_ok.mp turn
      cases turn
      rw [if_pos insert]
      exact ⟨shows', kept⟩
    · have full : ¬(c ≥ ord ' ' ∧ ed.i < BUFLEN - 1) := by
        rintro ⟨printable, room⟩
        exact insert ⟨printable, by omega⟩
      rw [if_neg full, if_neg (by tauto)] at turn
      cases turn
      rw [if_neg insert]
      exact ⟨shows, Kept.refl _⟩

/-- A character that ends the line. -/
theorem read_ends (follows : Follows ed chars) (shows : Shows ed.con s)
    (ends : c = ord '\n' ∨ c = ord '\r') :
    ∃ con', ed.read (iscons 0) c =
        .ok (.line { ed with buf := ed.buf.set ed.i.toNat 0, con := con' }) ∧
      Shows con' ((typedText [ord '\n']).foldl (Screen.act blankCell) s) ∧ Kept ed.con con' := by
  obtain ⟨con₁, returned⟩ := read_return follows ends
  obtain ⟨con', echoed, shows', kept⟩ := echo_prints (ord '\n') shows
  refine ⟨con', ?_, shows', kept⟩
  have nonneg : ¬c < 0 := by rcases ends with rfl | rfl <;> decide
  have noErase : ¬((c = ord '\x08' ∨ c = ord '\x7f') ∧ ed.i > 0) := by
    rcases ends with rfl | rfl <;> simp [ord]
  have noInsert : ¬(c ≥ ord ' ' ∧ ed.i < BUFLEN - 1) := by
    rcases ends with rfl | rfl <;> simp [ord]
  rw [Editor.read, if_neg nonneg, if_neg noErase, if_neg noInsert, if_pos ends, echoed,
    Exec.ok_bind] at returned ⊢
  obtain ⟨buf, written, returned⟩ := Exec.bind_eq_ok.mp returned
  cases returned
  rw [written]
  rfl

end Character

/-! ### The session -/

/-- The number of lines that an input ends. -/
def lineEnds (input : List Int) : Nat := input.countP fun c => c = ord '\n' ∨ c = ord '\r'

theorem prompt_shows {buf : List UInt8} (size : buf.length = BUFLEN) {con : Console}
    {s : CrtScreen} (shows : Shows con s) :
    ∃ con', (∀ input, readlineRest (some monitorPrompt) buf input con =
        Editor.readRest (iscons 0) input ⟨0, buf, con'⟩) ∧ Follows ⟨0, buf, con'⟩ [] ∧
      Shows con' ((typedText promptText).foldl (Screen.act blankCell) s) ∧ Kept con con' := by
  have text : monitorPrompt.bytes.map charInt = promptText := by decide +kernel
  obtain ⟨con', printed, shows', kept⟩ :=
    cprintf_shows (by decide) (@formatText_string monitorPrompt 1 (by decide)) shows
  rw [text] at shows'
  refine ⟨con', ?_, ?_, shows', kept⟩
  · intro input
    rw [readlineRest, printed]
    rfl
  · exact ⟨rfl, size, by decide, rfl, List.not_mem_nil, _, shows', Nat.zero_le _,
      fun _ _ none => absurd none (Nat.not_lt_zero _)⟩

/-- The loop from inside `readline`, where `chars` have been typed: by induction on the input, a
character at a time. -/
theorem Kernel.monitorLoop_shows (stack : Nat → CommandStack k.symbols) {input : List Int}
    (bytes : ∀ c ∈ input, 1 ≤ c ∧ c ≤ 255) {ed : Editor} {chars : List UInt8} {s : CrtScreen}
    (follows : Follows ed chars) (shows : Shows ed.con s) {fuel : Nat}
    (enough : input.length ≤ fuel) (line : Nat) {before : List Int} {buf : List UInt8}
    {con : Console}
    (inside : readlineRest (some monitorPrompt) buf before con = ed.readRest (iscons 0) input) :
    ∃ ed', k.monitorLoop stack (fuel + 1) line before buf con =
        .ok (.reading (line + lineEnds input) ed') ∧ Follows ed' (typedLine chars input) ∧
      Shows ed'.con
        ((typedText (k.dialogue stack line chars input)).foldl (Screen.act blankCell) s) ∧
      Kept ed.con ed'.con := by
  induction input generalizing ed chars s fuel line before buf con with
  | nil =>
    refine ⟨ed, ?_, follows, shows, Kept.refl _⟩
    rw [Kernel.monitorLoop, inside]
    rfl
  | cons c input ih =>
    obtain ⟨low, high⟩ := bytes c (List.mem_cons_self ..)
    have later : ∀ d ∈ input, 1 ≤ d ∧ d ≤ 255 := fun d member =>
      bytes d (List.mem_cons_of_mem _ member)
    by_cases ends : c = ord '\n' ∨ c = ord '\r'
    · -- the line goes to `runcmd`, and `readline` is called again
      obtain ⟨fuel, rfl⟩ : ∃ n, fuel = n + 1 :=
        ⟨fuel - 1, by rw [List.length_cons] at enough; omega⟩
      obtain ⟨con₁, turn, shows₁, kept₁⟩ := read_ends follows shows ends
      obtain ⟨tail, terminated⟩ : ∃ tail, ed.buf.set ed.i.toNat 0 = chars ++ 0 :: tail := by
        have place : ed.i.toNat = chars.length := by rw [follows.index, Int.toNat_natCast]
        have room : chars.length < ed.buf.length := by rw [follows.size]; exact follows.short
        refine ⟨ed.buf.drop (chars.length + 1), ?_⟩
        rw [place, List.set_eq_take_append_cons_drop, if_pos room, follows.stored]
      have size : (chars ++ 0 :: tail).length = BUFLEN := by
        rw [← terminated, List.length_set, follows.size]
      obtain ⟨buf₂, con₂, ran, size₂, kept₂, shows₂⟩ :=
        k.runcmd_shows (stack line) follows.noNul size shows₁
      obtain ⟨con₃, inside₃, follows₃, shows₃, kept₃⟩ := prompt_shows size₂ shows₂
      obtain ⟨ed', rest, follows', shows', kept'⟩ := ih later follows₃ shows₃
        (Nat.le_of_succ_le_succ enough) (line + 1) (inside₃ input)
      refine ⟨ed', ?_, ?_, ?_, kept₁.trans (kept₂.trans (kept₃.trans kept'))⟩
      · have count : line + lineEnds (c :: input) = line + 1 + lineEnds input := by
          rw [lineEnds, List.countP_cons_of_pos (by simpa using ends), ← lineEnds]
          omega
        rw [count, ← rest, Kernel.monitorLoop, inside, Editor.readRest, turn, terminated]
        simp only [Exec.ok_bind, Exec.pure_eq_ok]
        rw [ran, Exec.ok_bind]
        exact if_neg (Int.lt_irrefl 0)
      · rwa [typedLine, if_pos ends]
      · rw [Kernel.dialogue, if_pos ends]
        rw [← List.singleton_append, List.append_assoc, List.append_assoc, typedText_append,
          typedText_append, typedText_append, List.foldl_append, List.foldl_append,
          List.foldl_append]
        exact shows'
    · rw [not_or] at ends
      obtain ⟨ed₁, turn, follows₁, shows₁, kept₁⟩ := read_echoes follows shows low high ends
      have inside₁ : readlineRest (some monitorPrompt) buf before con =
          ed₁.readRest (iscons 0) input := by
        rw [inside, Editor.readRest, turn]
        rfl
      obtain ⟨ed', run, follows', shows', kept'⟩ := ih later follows₁ shows₁
        (Nat.le_of_succ_le enough) line inside₁
      refine ⟨ed', ?_, ?_, ?_, kept₁.trans kept'⟩
      · rw [run, lineEnds, lineEnds, List.countP_cons_of_neg (by simpa using ends)]
      · rwa [typedLine, if_neg (not_or.mpr ends)]
      · rwa [Kernel.dialogue, if_neg (not_or.mpr ends), typedText_append, List.foldl_append]

theorem Kernel.monitor_shows (stack : Nat → CommandStack k.symbols) {buf : List UInt8}
    (size : buf.length = BUFLEN) {con : Console} {s : CrtScreen} (shows : Shows con s)
    {input : List Int} (bytes : ∀ c ∈ input, 1 ≤ c ∧ c ≤ 255) :
    ∃ ed, k.monitor stack 0 input buf con = .ok (.reading (lineEnds input) ed) ∧
      Follows ed (typedLine [] input) ∧ Kept con ed.con ∧
      Shows ed.con ((typedText (k.sessionText stack input)).foldl (Screen.act blankCell) s) := by
  have welcome := Renders.plain (s := literal "Welcome to the JOS kernel monitor!\n")
    (by decide +kernel)
  have hint := Renders.plain (s := literal "Type 'help' for a list of commands.\n")
    (by decide +kernel)
  obtain ⟨con₁, printed₁, shows₁, kept₁⟩ := cprintf_shows (by decide +kernel) welcome shows
  obtain ⟨con₂, printed₂, shows₂, kept₂⟩ := cprintf_shows (by decide +kernel) hint shows₁
  obtain ⟨con₃, inside₃, follows₃, shows₃, kept₃⟩ := prompt_shows size shows₂
  obtain ⟨ed, run, follows, shows', kept⟩ := k.monitorLoop_shows stack bytes follows₃ shows₃
    (Nat.le_refl _) 0 (inside₃ input)
  refine ⟨ed, ?_, follows, kept₁.trans (kept₂.trans (kept₃.trans kept)), ?_⟩
  · rw [Kernel.monitor, printed₁, Exec.ok_bind]
    dsimp only
    rw [printed₂, Exec.ok_bind]
    dsimp only
    rw [run, Nat.zero_add]
  · simp only [Kernel.sessionText, typedText_append, List.foldl_append]
    exact shows'

/-- The display of a console that shows what a text makes of the display of another. -/
theorem Shows.terminal_typed {con con' : Console} (inside : con.crtPos.toNat < CRT_SIZE)
    {out : List Int}
    (shows : Shows con' ((typedText out).foldl (Screen.act blankCell) (con.screen inside))) :
    con'.terminal shows.bound =
      (typedText out).foldl (Terminal.act blankCell) (con.terminal inside) := by
  rw [Console.terminal, shows.screen_eq, Screen.terminal_acts]
  rfl

/-- The monitor on any input: it never returns and never faults, every line that has ended has
been run once, the line that is being typed is in the buffer, the terminal shows the dialogue, and
no other memory changes. -/
theorem Kernel.monitor_session (stack : Nat → CommandStack k.symbols) {buf : List UInt8}
    (size : buf.length = BUFLEN) {con : Console} (inside : con.crtPos.toNat < CRT_SIZE)
    {input : List Int} (bytes : ∀ c ∈ input, 1 ≤ c ∧ c ≤ 255) :
    ∃ ed, k.monitor stack 0 input buf con = .ok (.reading (lineEnds input) ed) ∧
      Follows ed (typedLine [] input) ∧ Kept con ed.con ∧
      ∃ inside' : ed.con.crtPos.toNat < CRT_SIZE, ed.con.terminal inside' =
        (typedText (k.sessionText stack input)).foldl (Terminal.act blankCell)
          (con.terminal inside) := by
  obtain ⟨ed, run, follows, kept, shows⟩ := k.monitor_shows stack size (shows_screen inside) bytes
  exact ⟨ed, run, follows, kept, shows.bound, shows.terminal_typed inside⟩

/-- A kernel with a small table, whose stack is that of a backtrace. -/
def smallKernel : Kernel where
  rodata := ⟨fun _ => 0xf0101000, fun _ => by decide⟩
  linked := ⟨0x10000c, 0xf010000c, 0xf0101a00, 0xf0112300, 0xf0112940, by decide, by decide⟩
  symbols :=
    { toSymbols := smallSymbols
      headed := by intro s header; cases header; rfl
      fits := by decide +kernel
      placed := fun _ => show (0xf0101000 : BitVec 32) ≠ 0 by decide
      nonnull := show (0xf010ff24 : BitVec 32) ≠ 0 by decide }
  line := 0xf0112540
  nonnull := by decide
  inside := by decide

def smallCommandStack : CommandStack smallKernel.symbols where
  argv _ := none
  mem := smallStack
  temp := 0xf010ff64
  funcName _ := 0
  frames := smallFrames
  chain := smallStack_chain
  kernel := forall_smallFrames.mpr (by decide +kernel)
  short := forall_smallFrames.mpr (by decide +kernel)

/-- `help` with a slip of the finger, an unknown command, and the beginning of a third line. -/
theorem monitor_session_lines :
    ∃ ed, smallKernel.monitor (fun _ => smallCommandStack) 0
        [0x68, 0x65, 0x6d, 8, 0x6c, 0x70, 0x0a, 0x78, 0x0d, 0x62] (List.replicate 1024 0)
        ⟨fun _ => 0, .cga, 0, []⟩ = .ok (.reading 2 ed) ∧ Follows ed [0x62] := by
  obtain ⟨ed, run, follows, -⟩ := @Kernel.monitor_session smallKernel (fun _ => smallCommandStack)
    (List.replicate 1024 0) List.length_replicate ⟨fun _ => 0, .cga, 0, []⟩ (by decide)
    [0x68, 0x65, 0x6d, 8, 0x6c, 0x70, 0x0a, 0x78, 0x0d, 0x62] (by decide)
  exact ⟨ed, run, follows⟩

end Jos
