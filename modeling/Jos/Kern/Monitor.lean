import Jos.Lib.Printfmt

/-!
# kern/monitor.c: the command interpreter

A pointer into the command buffer is its offset. The elements of `argv` that have not been
written are whatever the stack held.
-/
namespace Jos

open Library

/-- A call of `cprintf`. -/
structure Printed where
  fmt : List UInt8
  args : VaList
  deriving DecidableEq

/-! ### The commands -/

inductive Func where
  | monHelp | monKerninfo | monBacktrace
  deriving DecidableEq

structure Command where
  name : List UInt8
  func : Func

def commands : List Command :=
  [⟨literal "help", .monHelp⟩, ⟨literal "kerninfo", .monKerninfo⟩,
    ⟨literal "backtrace", .monBacktrace⟩]

/-! ### runcmd -/

def WHITESPACE : List UInt8 := literal "\t\r\n "
def MAXARGS : Nat := 16

/-- The command buffer, and `buf` as an offset into it. -/
structure Line where
  buf : List UInt8
  pos : Nat

/-- `*buf && strchr(WHITESPACE, *buf)`, or with `strchr` negated. -/
def Line.atSpace (l : Line) (space : Bool) : Exec Bool := do
  let b ← readAt l.buf l.pos
  if b ≠ 0 then
    let found ← strchr (WHITESPACE ++ [0]) b
    pure (found.isSome == space)
  else pure false

/-- `*buf++ = 0` -/
def Line.blank (l : Line) : Exec Line := do
  let buf ← writeAt l.buf l.pos 0
  pure { buf, pos := l.pos + 1 }

/-- gobble whitespace -/
def gobble (l : Line) : Exec Line :=
  whileLoop (·.atSpace true) Line.blank (l.buf.length + 1) l

/-- scan past next arg -/
def scanPast (l : Line) : Exec Line :=
  whileLoop (·.atSpace false) (fun l => pure { l with pos := l.pos + 1 }) (l.buf.length + 1) l

/-- The variables of the loop in `runcmd`; a null pointer in `argv` is `none`. -/
structure Args where
  line : Line
  argc : Nat
  argv : List (Option Nat)

/-- How the loop ends: with all arguments, or with one too many. -/
inductive Parsed where
  | args (a : Args)
  | tooMany (a : Args)

/-- Parse the command buffer into whitespace-separated arguments. -/
def parseArgs : Nat → Args → Exec Parsed
  | 0, _ => .error .outOfFuel
  | fuel + 1, a => do
    let line ← gobble a.line
    let b ← readAt line.buf line.pos
    if b = 0 then pure (.args { a with line })
    else if a.argc = MAXARGS - 1 then pure (.tooMany { a with line })
    else do
      let argv ← writeAt a.argv a.argc (some line.pos)
      let line ← scanPast line
      parseArgs fuel { line, argc := a.argc + 1, argv }

/-- The loop over the commands. -/
def lookup (name : List UInt8) : List Command → Exec (Option Func)
  | [] => pure none
  | command :: rest => do
    let r ← strcmp name (command.name ++ [0])
    if r = 0 then pure (some command.func) else lookup name rest

/-- What `runcmd` has done: the buffer, its locals, what it has printed, and the command that it
has called with these arguments. -/
structure Ran where
  buf : List UInt8
  argc : Nat
  argv : List (Option Nat)
  printed : List Printed
  call : Option Func

/-- Lookup and invoke the command: `runcmd` behind its loop. -/
def dispatch (addr : BitVec 32) (a : Args) : Exec Ran := do
  let argv ← writeAt a.argv a.argc none
  let ran : Ran := { buf := a.line.buf, argc := a.argc, argv, printed := [], call := none }
  if a.argc = 0 then pure ran
  else
    match ← readAt argv 0 with
    | none => .error .outOfBounds
    | some p => do
      match ← lookup (ran.buf.drop p) commands with
      | some func => pure { ran with call := some func }
      | none =>
        let name := Arg.ptr (addr + .ofNat 32 p) (ran.buf.drop p)
        pure { ran with printed := [⟨literal "Unknown command '%s'\n", [name]⟩] }

/-- `runcmd` on a buffer at the address `addr`, with `argv` as it is on the stack. -/
def runcmd (addr : BitVec 32) (buf : List UInt8) (argv : List (Option Nat)) : Exec Ran := do
  let argv ← writeAt argv 0 none
  match ← parseArgs (MAXARGS + 1) { line := { buf, pos := 0 }, argc := 0, argv } with
  | .tooMany a =>
    let text : Printed := ⟨literal "Too many arguments (max %d)\n", [.word (.ofNat 32 MAXARGS)]⟩
    pure { buf := a.line.buf, argc := a.argc, argv := a.argv, printed := [text], call := none }
  | .args a => dispatch addr a

end Jos
