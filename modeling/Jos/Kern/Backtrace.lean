import Jos.Kern.Kdebug
import Jos.Kern.Monitor
import Jos.Library.Memory

/-!
# mon_backtrace and test_backtrace

The words that `mon_backtrace` loads lie at its own frame pointer and above, where neither it
nor what it calls stores anything, so the memory stays as it is. `func_name` is an object of its
own.
-/
namespace Jos

open Library

/-- The debugging tables, and the addresses of the strings that are printed. -/
structure Symbols where
  stabs : List Stab
  stabstr : List UInt8
  place : Name → BitVec 32
  funcName : BitVec 32

/-! ### mon_backtrace -/

/-- The variables of `mon_backtrace` that hold addresses. -/
structure FrameVars where
  ebp : BitVec 32
  eip : BitVec 32
  arg1 : BitVec 32
  arg2 : BitVec 32
  arg3 : BitVec 32
  arg4 : BitVec 32
  arg5 : BitVec 32

/-- The first frame is found from the address of the local `temp`. -/
def FrameVars.first (temp : BitVec 32) : FrameVars where
  ebp := temp + 0x1c
  eip := temp + 0x20
  arg1 := temp + 0x24
  arg2 := temp + 0x28
  arg3 := temp + 0x2c
  arg4 := temp + 0x30
  arg5 := temp + 0x34

/-- And every later one from its frame pointer. -/
def FrameVars.next (ebp : BitVec 32) : FrameVars where
  ebp
  eip := ebp + 4
  arg1 := ebp + 8
  arg2 := ebp + 0xc
  arg3 := ebp + 0x10
  arg4 := ebp + 0x14
  arg5 := ebp + 0x18

def frameFormat : List UInt8 := literal "  ebp %08x  eip %08x  args %08x %08x %08x %08x %08x\n"
def nameFormat : List UInt8 := literal "         %s:%d: %s+%d\n"

/-- The variables of the loop, and what has been printed so far. -/
structure Backtrace where
  vars : FrameVars
  funcName : List UInt8
  printed : List Printed

/-- The two stores to `func_name`: `strncpy` and the NUL behind it. -/
def storeName (stabstr : List UInt8) (info : Eipdebuginfo) (funcName : List UInt8) :
    Exec (List UInt8) := do
  let funcName ← strncpy funcName (info.eipFnName.object stabstr) info.eipFnNamelen.toNat
  writeAt funcName info.eipFnNamelen 0

/-- The first line of a frame. -/
def frameLine (mem : Mem) (v : FrameVars) : Printed where
  fmt := frameFormat
  args := [.word v.ebp, .word (load32 mem v.eip), .word (load32 mem v.arg1),
    .word (load32 mem v.arg2), .word (load32 mem v.arg3), .word (load32 mem v.arg4),
    .word (load32 mem v.arg5)]

/-- The second line of a frame. -/
def nameLine (k : Symbols) (info : Eipdebuginfo) (eip : BitVec 32) (funcName : List UInt8) :
    Printed where
  fmt := nameFormat
  args := [.ptr (k.place info.eipFile) (info.eipFile.object k.stabstr),
    .word (.ofInt 32 info.eipLine), .ptr k.funcName funcName,
    .word (eip - info.eipFnAddr.toBitVec + 1)]

/-- The body of the loop, up to the test of the saved frame pointer. -/
def printFrame (k : Symbols) (mem : Mem) (b : Backtrace) : Exec Backtrace := do
  let eip := load32 mem b.vars.eip
  let (_, info) ← debuginfoEip k.stabs k.stabstr (.ofBitVec eip)
  let funcName ← storeName k.stabstr info b.funcName
  let lines := [frameLine mem b.vars, nameLine k info eip funcName]
  pure { b with funcName, printed := b.printed ++ lines }

def walkFrames (k : Symbols) (mem : Mem) : Nat → Backtrace → Exec Backtrace
  | 0, _ => .error .outOfFuel
  | fuel + 1, b => do
    let b ← printFrame k mem b
    let ebp := load32 mem b.vars.ebp
    if ebp = 0 then pure b
    else walkFrames k mem fuel { b with vars := .next ebp }

/-- The loop begins with `func_name` as it is on the stack. -/
def Backtrace.start (temp : BitVec 32) (funcName : List UInt8) : Backtrace where
  vars := .first temp
  funcName
  printed := [⟨literal "Stack backtrace:\n", []⟩]

/-- `mon_backtrace` with the local `temp` at this address. -/
def monBacktrace (k : Symbols) (mem : Mem) (temp : BitVec 32) (funcName : List UInt8)
    (fuel : Nat) : Exec (List Printed) :=
  (·.printed) <$> walkFrames k mem fuel (.start temp funcName)

/-! ### test_backtrace -/

/-- A call of one of these functions, with its arguments. -/
inductive Call where
  | i386Init
  | testBacktrace (x : BitVec 32)
  | monBacktrace (argc argv tf : BitVec 32)
  deriving DecidableEq

/-- The words that the caller has pushed, the first argument first. -/
def Call.args : Call → List (BitVec 32)
  | .i386Init => []
  | .testBacktrace x => [x]
  | .monBacktrace argc argv tf => [argc, argv, tf]

/-- `test_backtrace` above the calls that are active. What `mon_backtrace` prints depends on the
calls that are active then, its own being the innermost. -/
def testBacktrace (backtrace : List Call → Exec (List Printed)) (x : Int) (callers : List Call) :
    Exec (List Printed) := do
  let active := .testBacktrace (.ofInt 32 x) :: callers
  let entering : Printed := ⟨literal "entering test_backtrace %d\n", [.word (.ofInt 32 x)]⟩
  let inner ←
    if x > 0 then testBacktrace backtrace (x - 1) active
    else backtrace (.monBacktrace 0 0 0 :: active)
  let leaving : Printed := ⟨literal "leaving test_backtrace %d\n", [.word (.ofInt 32 x)]⟩
  pure (entering :: (inner ++ [leaving]))
termination_by x.toNat
decreasing_by omega

end Jos
