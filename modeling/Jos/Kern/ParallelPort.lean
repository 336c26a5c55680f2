import Jos.Kern.SerialPort

/-!
# kern/console.c: the parallel port

`lpt_putc` as it uses the ports, with a printer that takes a byte at the edge of the strobe if
it is not busy then.
-/
namespace Jos

open Library

/-! ### The printer -/

structure Printer where
  data : BitVec 8
  control : BitVec 8
  paper : List (BitVec 8)
  /-- For how many more reads of the status the printer is busy. -/
  busy : Nat
  /-- The same for the bytes that it will take. -/
  delays : Nat → Nat
  taken : Nat
  /-- The other bits of the status. -/
  noise : Nat → BitVec 8
  polls : Nat

namespace Printer

/-- `inb(0x378+1)`: the highest bit is set when the printer is not busy. -/
def status (p : Printer) : BitVec 8 × Printer :=
  (p.noise p.polls &&& 0x7F ||| (if p.busy = 0 then 0x80 else 0),
    { p with busy := p.busy - 1, polls := p.polls + 1 })

def strobe (control : BitVec 8) : Bool := control.getLsbD 0

/-- The edge of the strobe. -/
def take (p : Printer) : Printer :=
  if p.busy = 0 then
    { p with paper := p.paper ++ [p.data], busy := p.delays p.taken, taken := p.taken + 1 }
  else p

def outb (port : BitVec 32) (data : BitVec 8) (p : Printer) : Printer :=
  if port = 0x378 + 0 then { p with data := data }
  else if port = 0x378 + 2 then
    let edge := strobe data && !strobe p.control
    let p := { p with control := data }
    if edge then p.take else p
  else p

end Printer

section Run

variable {p : Printer}

end Run

/-! ### What is lost -/

section Accepted

variable (delays : Nat → Nat)

end Accepted

end Jos
