import Jos.Kern.BacktraceText
import Jos.Kern.CommandLine
import Jos.Lib.Readline

/-!
# The reply to a command line

`runcmd` with its effects: what it and the command that it calls show on the screen, for every
line.
-/
namespace Jos

open Library

/-! ### runcmd and the command that it calls -/

/-- The stack under a command: the array `argv`, and what `mon_backtrace` finds should it be
called. The saved frame pointers lead through functions of the kernel whose names fit. -/
structure CommandStack (k : KernelSymbols) where
  argv : Fin MAXARGS → Option Nat
  mem : Mem
  temp : BitVec 32
  funcName : Fin 64 → UInt8
  frames : List (BitVec 32)
  chain : Chain mem (temp + 0x1c) frames
  kernel : ∀ ebp ∈ frames, ULIM ≤ .ofBitVec (load32 mem (ebp + 4))
  short : ∀ ebp ∈ frames, ∀ name ∈ symbol k.toSymbols (load32 mem (ebp + 4)), name.length < 64

/-- What is fixed when the kernel is linked; `line` is the address of the buffer of `readline`. -/
structure Kernel where
  rodata : Rodata
  linked : Linked
  symbols : KernelSymbols
  line : BitVec 32
  nonnull : 0 < line.toNat
  inside : line.toNat + BUFLEN ≤ 2 ^ 32

variable (k : Kernel)

/-- What a command returns and prints. -/
def Kernel.call (stack : CommandStack k.symbols) : Func → Exec (Int × List Printed)
  | .monHelp => pure (0, monHelp k.rodata)
  | .monKerninfo => pure (0, monKerninfo k.linked)
  | .monBacktrace => do
    let printed ← monBacktrace k.symbols.toSymbols stack.mem stack.temp (List.ofFn stack.funcName)
      stack.frames.length
    pure (0, printed)

/-- `runcmd(buf, tf)`: what it returns, the buffer and the console. -/
def Kernel.runcmd (stack : CommandStack k.symbols) (buf : List UInt8) (con : Console) :
    Exec (Int × List UInt8 × Console) := do
  let ran ← Jos.runcmd k.line buf (List.ofFn stack.argv)
  let con ← printAll ran.printed con
  match ran.call with
  | none => pure (0, ran.buf, con)
  | some func => do
    let (r, printed) ← k.call stack func
    let con ← printAll printed con
    pure (r, ran.buf, con)

/-! ### The reply to a line -/

inductive Reply where
  | nothing
  | tooMany
  | call (func : Func)
  | unknown (word : List UInt8)

/-- What a line asks for. -/
def reply (line : List UInt8) : Reply :=
  match (words 0 line).head? with
  | none => .nothing
  | some (_, word) =>
    if MAXARGS ≤ (words 0 line).length then .tooMany
    else
      match commands.find? fun command => decide (command.name = word) with
      | some command => .call command.func
      | none => .unknown word

def Kernel.callText (stack : CommandStack k.symbols) : Func → List Int
  | .monHelp => helpText
  | .monKerninfo => kerninfoText k.linked
  | .monBacktrace => backtraceText k.symbols.toSymbols stack.mem stack.frames

/-- What `runcmd` itself prints. -/
def Reply.ownText : Reply → List Int
  | .tooMany => plainText (literal "Too many arguments (max 16)\n")
  | .unknown word =>
    plainText (literal "Unknown command '") ++ (word.map charInt ++ plainText (literal "'\n"))
  | _ => []

def Reply.func : Reply → Option Func
  | .call func => some func
  | _ => none

def Kernel.replyText (stack : CommandStack k.symbols) (r : Reply) : List Int :=
  r.ownText ++ r.func.elim [] (k.callText stack)

theorem unknown_prints {addr : BitVec 32} (nonnull : addr ≠ 0) {word : List UInt8}
    (noNul : 0 ∉ word) (short : word.length < 2147483648) (rest : List UInt8) :
    Prints [⟨literal "Unknown command '%s'\n", [.ptr addr (word ++ 0 :: rest)]⟩]
      (Reply.unknown word).ownText := by
  have whole : literal "Unknown command '%s'\n" =
      literal "Unknown command '" ++ (literal "%s" ++ (literal "'\n" ++ [])) := by decide +kernel
  refine .single (by decide +kernel) ?_
  rw [whole]
  exact .text (by decide +kernel) (.string nonnull noNul short rest (.last (by decide)))

theorem tooMany_prints :
    Prints [⟨literal "Too many arguments (max %d)\n", [.word (.ofNat 32 MAXARGS)]⟩]
      Reply.tooMany.ownText := by
  have whole : literal "Too many arguments (max %d)\n" =
      literal "Too many arguments (max " ++ (literal "%d" ++ (literal ")\n" ++ [])) := by
    decide +kernel
  have text : Reply.tooMany.ownText = plainText (literal "Too many arguments (max ") ++
      (decimalText (.ofNat 32 MAXARGS) ++ plainText (literal ")\n")) := by
    rw [decimalText_of_lt (by decide)]
    decide +kernel
  rw [text]
  refine .single (by decide +kernel) ?_
  rw [whole]
  exact .text (by decide +kernel) (.decimal _ (.last (by decide)))

theorem runcmd_answers {addr : BitVec 32} (line : CString) (tail : List UInt8)
    (nonnull : 0 < addr.toNat) (inside : addr.toNat + line.bytes.length < 2 ^ 32)
    (argv : Fin MAXARGS → Option Nat) :
    ∃ ran, runcmd addr (line.bytes ++ 0 :: tail) (List.ofFn argv) = .ok ran ∧
      ran.buf.length = (line.bytes ++ 0 :: tail).length ∧
      Prints ran.printed (reply line.bytes).ownText ∧ ran.call = (reply line.bytes).func := by
  have size : MAXARGS = 16 := rfl
  have started : writeAt (List.ofFn argv) 0 none = .ok ((List.ofFn argv).set 0 none) :=
    if_pos (by rw [List.length_ofFn, size]; decide)
  have slots : ((List.ofFn argv).set 0 none).length = MAXARGS := by
    rw [List.length_set, List.length_ofFn]
  obtain ⟨args, tooMany⟩ := parseArgs_words line.bytes line.noNul [] tail 0 _ slots (Nat.zero_le _)
    (MAXARGS + 1) (Nat.le_succ _)
  simp only [List.nil_append, List.length_nil, Nat.zero_add] at args tooMany
  rw [runcmd, started, Exec.ok_bind]
  rcases first : (words 0 line.bytes).head? with _ | ⟨start, word⟩
  · -- a blank line
    have none : words 0 line.bytes = [] := List.head?_eq_none_iff.mp first
    have asked : reply line.bytes = .nothing := by rw [reply, first]
    obtain ⟨argv', parsed, filled⟩ := args (by rw [none]; decide)
    have room : (0 : Int) ≤ ((0 : Nat) : Int) ∧ ((0 : Nat) : Int) < (argv'.length : Int) := by
      rw [filled.length, slots]
      decide
    refine ⟨⟨line.bytes.map cleared ++ 0 :: tail, 0, argv'.set 0 Option.none, [], Option.none⟩,
      ?_, by simp, ?_, by rw [asked]; rfl⟩
    · rw [parsed, Exec.ok_bind, none]
      dsimp only
      rw [dispatch, List.length_nil, writeAt, if_pos room]
      rfl
    · rw [asked]
      exact .nil
  · have here : (words 0 line.bytes)[0]? = some (start, word) := by
      rw [← List.head?_eq_getElem?, first]
    have member : (start, word) ∈ words 0 line.bytes := List.mem_of_head? first
    rcases Nat.lt_or_ge (words 0 line.bytes).length MAXARGS with few | many
    · obtain ⟨argv', parsed, filled⟩ := args (Nat.le_pred_of_lt few)
      obtain ⟨ran, returned, -, buf, splits⟩ := dispatch_splits addr line.bytes tail line.noNul
        line.bytes.length filled slots (List.length_pos_of_mem member) few
      have call := splits.call start word here
      have printed := splits.unknown start word here
      refine ⟨ran, by rw [parsed]; exact returned, by rw [buf]; simp, ?_⟩
      cases found : commands.find? fun command => decide (command.name = word) with
      | some command =>
        have asked : reply line.bytes = .call command.func := by
          rw [reply, first]
          dsimp only
          rw [if_neg (Nat.not_le.mpr few), found]
        rw [found, Option.map_some] at call
        rw [call, if_neg (Option.some_ne_none _)] at printed
        rw [asked, printed]
        exact ⟨.nil, call⟩
      | none =>
        have asked : reply line.bytes = .unknown word := by
          rw [reply, first]
          dsimp only
          rw [if_neg (Nat.not_le.mpr few), found]
        rw [found, Option.map_none] at call
        obtain ⟨-, rest, reads⟩ := splits.argv 0 start word here
        obtain ⟨before, after, whole, place, -⟩ := (mem_words_iff 0 start word line.bytes).mp member
        have length := congrArg List.length whole
        rw [List.length_append, List.length_append] at length
        have fits := line.fits
        rw [call, if_pos rfl, reads] at printed
        rw [asked, printed]
        exact ⟨unknown_prints (by bv_omega) (words_noNul line.noNul member) (by omega) rest, call⟩
    · obtain ⟨p, q, pos, argv', split, parsed, -⟩ := tooMany many
      have asked : reply line.bytes = .tooMany := by
        rw [reply, first]
        exact if_pos many
      refine ⟨_, by rw [parsed]; rfl, ?_, ?_, ?_⟩
      · rw [split]
        simp
      · rw [asked]
        exact tooMany_prints
      · rw [asked]
        rfl

/-- A command returns 0, whatever it prints. -/
theorem Kernel.call_prints (stack : CommandStack k.symbols) (func : Func) :
    ∃ ps, k.call stack func = .ok (0, ps) ∧ Prints ps (k.callText stack func) := by
  cases func with
  | monHelp => exact ⟨_, rfl, monHelp_prints k.rodata⟩
  | monKerninfo => exact ⟨_, rfl, monKerninfo_prints k.linked⟩
  | monBacktrace =>
    obtain ⟨ps, returned, prints⟩ := monBacktrace_prints k.symbols stack.mem stack.chain
      (fun ebp member => symbol_kernel k.symbols.headed (stack.kernel ebp member)
        (stack.short ebp member)) stack.funcName (Nat.le_refl _)
    exact ⟨ps, by rw [Kernel.call, returned]; rfl, prints⟩

/-- For every line and whatever is on the stack: the monitor goes on, and the screen shows the
reply. -/
theorem Kernel.runcmd_shows (stack : CommandStack k.symbols) {line tail : List UInt8}
    (noNul : 0 ∉ line) (size : (line ++ 0 :: tail).length = BUFLEN) {con : Console}
    {s : CrtScreen} (shows : Shows con s) :
    ∃ buf con', k.runcmd stack (line ++ 0 :: tail) con = .ok (0, buf, con') ∧
      buf.length = BUFLEN ∧ Kept con con' ∧
      Shows con' ((typedText (k.replyText stack (reply line))).foldl (Screen.act blankCell) s) := by
  have short : line.length < BUFLEN := by
    rw [List.length_append, List.length_cons] at size
    omega
  have buflen : BUFLEN = 1024 := rfl
  have inside := k.inside
  obtain ⟨ran, returned, length, prints, call⟩ := @runcmd_answers k.line
    ⟨line, noNul, by omega⟩ tail k.nonnull (by dsimp only; omega) stack.argv
  obtain ⟨con₁, printed₁, shows₁, kept₁⟩ := printAll_shows prints shows
  rw [Kernel.runcmd, returned, Exec.ok_bind, printed₁, Exec.ok_bind, call, Kernel.replyText,
    typedText_append, List.foldl_append]
  cases (reply line).func with
  | none => exact ⟨ran.buf, con₁, rfl, length.trans size, kept₁, shows₁⟩
  | some func =>
    obtain ⟨ps, called, prints'⟩ := k.call_prints stack func
    obtain ⟨con', printed', shows', kept'⟩ := printAll_shows prints' shows₁
    refine ⟨ran.buf, con', ?_, length.trans size, kept₁.trans kept', shows'⟩
    dsimp only
    rw [called, Exec.ok_bind]
    dsimp only
    rw [printed']
    rfl

end Jos
