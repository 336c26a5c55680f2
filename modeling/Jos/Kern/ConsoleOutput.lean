import Jos.Library.Exec
import Jos.Lib.Memmove

/-!
# kern/console.c: the console output devices

The text buffer is part of memory; an access to it outside its cells is a fault. What goes to
the ports is kept in the order in which it is sent. The waits for the serial and the parallel
port only read their status, and end after a bounded number of reads.
-/
namespace Jos

open Library

def CRT_ROWS : Nat := 25
def CRT_COLS : Nat := 80
def CRT_SIZE : Nat := CRT_ROWS * CRT_COLS

def KERNBASE : BitVec 32 := 0xF0000000
def CGA_BUF : BitVec 32 := 0xB8000
def MONO_BUF : BitVec 32 := 0xB0000
def CGA_BASE : BitVec 32 := 0x3D4
def MONO_BASE : BitVec 32 := 0x3B4
def COM1 : BitVec 32 := 0x3F8
def COM_TX : BitVec 32 := 0

/-- The adapter that `cga_init` has found. -/
inductive Adapter where
  | cga | mono
  deriving DecidableEq

def Adapter.crtBuf : Adapter → BitVec 32
  | .cga => KERNBASE + CGA_BUF
  | .mono => KERNBASE + MONO_BUF

def Adapter.addr6845 : Adapter → BitVec 32
  | .cga => CGA_BASE
  | .mono => MONO_BASE

/-- A byte on its way to a port. -/
structure Outb where
  port : BitVec 32
  data : BitVec 8
  deriving DecidableEq

structure Console where
  mem : Mem
  adapter : Adapter
  crtPos : BitVec 16
  out : List Outb

namespace Console

def outb (con : Console) (port : BitVec 32) (data : BitVec 8) : Console :=
  { con with out := con.out ++ [⟨port, data⟩] }

def serialPutc (con : Console) (c : BitVec 32) : Console :=
  con.outb (COM1 + COM_TX) (c.setWidth 8)

def lptPutc (con : Console) (c : BitVec 32) : Console :=
  ((con.outb (0x378 + 0) (c.setWidth 8)).outb (0x378 + 2) 0x0D).outb (0x378 + 2) 0x08

/-! ### cga_putc -/

/-- The address of `crt_buf[i]`. -/
def cellAddr (con : Console) (i : Nat) : BitVec 32 :=
  con.adapter.crtBuf + BitVec.ofNat 32 (2 * i)

/-- `crt_buf[i] = v` -/
def crtStore (con : Console) (i : Nat) (v : BitVec 16) : Exec Console :=
  if i < CRT_SIZE then .ok { con with mem := store16 con.mem (con.cellAddr i) v }
  else .error .outOfBounds

def ret (con : Console) : Console :=
  { con with crtPos := con.crtPos - con.crtPos % BitVec.ofNat 16 CRT_COLS }

/-- `for (i = CRT_SIZE - CRT_COLS; i < CRT_SIZE; i++) crt_buf[i] = 0x0700 | ' ';` -/
def blankLastRow (con : Console) : Exec Console :=
  (List.range' (CRT_SIZE - CRT_COLS) CRT_COLS).foldlM (fun con i => con.crtStore i 0x0720) con

/-- The part that follows the switch. -/
def scroll (con : Console) : Exec Console :=
  if con.crtPos.toNat ≥ CRT_SIZE then do
    let mem := memmove (con.cellAddr 0) (con.cellAddr CRT_COLS)
      (BitVec.ofNat 32 ((CRT_SIZE - CRT_COLS) * 2)) con.mem
    let con ← blankLastRow { con with mem }
    pure { con with crtPos := con.crtPos - BitVec.ofNat 16 CRT_COLS }
  else pure con

/-- move that little blinky thing -/
def moveCursor (con : Console) : Console :=
  let addr := con.adapter.addr6845
  let con := con.outb addr 14
  let con := con.outb (addr + 1) ((con.crtPos >>> 8).setWidth 8)
  let con := con.outb addr 15
  con.outb (addr + 1) (con.crtPos.setWidth 8)

/-- The switch of `cga_putc`, which prints a tab through `cons_putc`. -/
def cgaSwitch (consPutc : BitVec 32 → Console → Exec Console) (c : BitVec 32)
    (con : Console) : Exec Console :=
  if c &&& 0xFF#32 = 8 then
    if con.crtPos > 0 then
      let con := { con with crtPos := con.crtPos - 1 }
      con.crtStore con.crtPos.toNat (((c &&& ~~~0xFF#32) ||| 0x20#32).setWidth 16)
    else pure con
  else if c &&& 0xFF#32 = 10 then
    pure (ret { con with crtPos := con.crtPos + BitVec.ofNat 16 CRT_COLS })
  else if c &&& 0xFF#32 = 13 then pure (ret con)
  else if c &&& 0xFF#32 = 9 then do
    let con ← consPutc 0x20 con
    let con ← consPutc 0x20 con
    let con ← consPutc 0x20 con
    let con ← consPutc 0x20 con
    consPutc 0x20 con
  else do
    -- write the character
    let con ← con.crtStore con.crtPos.toNat (c.setWidth 16)
    pure { con with crtPos := con.crtPos + 1 }

end Console

/-- if no attribute given, then use black on white -/
def withAttribute (c : BitVec 32) : BitVec 32 :=
  if c &&& ~~~0xFF#32 = 0 then c ||| 0x0700#32 else c

def cgaPutcWith (consPutc : BitVec 32 → Console → Exec Console) (c : BitVec 32)
    (con : Console) : Exec Console := do
  let con ← con.cgaSwitch consPutc (withAttribute c)
  let con ← con.scroll
  pure con.moveCursor

/-- `cons_putc` with its calls of itself, through a tab, nested at most `depth` deep. -/
def consPutcNested : Nat → BitVec 32 → Console → Exec Console
  | 0, _, _ => .error .outOfFuel
  | depth + 1, c, con => cgaPutcWith (consPutcNested depth) c ((con.serialPutc c).lptPutc c)

/-- A tab prints spaces, which print no tab. -/
def cgaPutc (c : BitVec 32) (con : Console) : Exec Console :=
  cgaPutcWith (consPutcNested 1) c con

/-- output a character to the console -/
def consPutc (c : BitVec 32) (con : Console) : Exec Console := consPutcNested 2 c con

def cputchar (c : Int) (con : Console) : Exec Console := consPutc (BitVec.ofInt 32 c) con

end Jos
