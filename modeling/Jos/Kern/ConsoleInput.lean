import Jos.Library.Exec
import Mathlib.Logic.Function.Basic

/-!
# kern/console.c: the console input buffer

A device is its state and the `proc` that `cons_intr` calls until it answers -1. The devices
of a run are lists of the bytes that they have ready.
-/
namespace Jos

open Library

def CONSBUFSIZE : Nat := 512

/-- The static `cons`. -/
structure Cons where
  buf : Nat → UInt8
  rpos : Nat
  wpos : Nat

def Cons.zeroed : Cons := { buf := fun _ => 0, rpos := 0, wpos := 0 }

/-- `cons_intr(proc)`, where `proc` takes its device from one state to the next. -/
def consIntr {δ : Type} (proc : δ → Int × δ) : Nat → δ → Cons → Exec (δ × Cons)
  | 0, _, _ => .error .outOfFuel
  | fuel + 1, device, cons =>
    let (c, device) := proc device
    if c ≠ -1 then
      if c = 0 then
        consIntr proc fuel device cons
      else if cons.wpos < CONSBUFSIZE then
        let buf := Function.update cons.buf cons.wpos (UInt8.ofInt c)
        let wpos := cons.wpos + 1
        consIntr proc fuel device
          { cons with buf, wpos := if wpos = CONSBUFSIZE then 0 else wpos }
      else .error .outOfBounds
    else .ok (device, cons)

/-- The `proc` of a device that has a list of bytes ready. -/
def procData : List UInt8 → Int × List UInt8
  | [] => (-1, [])
  | b :: bytes => (b.toNat, bytes)

/-- `cons_intr` on a device that has these bytes ready. -/
def consIntrData (bytes : List UInt8) (cons : Cons) : Exec Cons :=
  (·.2) <$> consIntr procData (bytes.length + 1) bytes cons

def serialIntr (serialExists : Bool) (bytes : List UInt8) (cons : Cons) : Exec Cons :=
  if serialExists then consIntrData bytes cons else pure cons

def kbdIntr (bytes : List UInt8) (cons : Cons) : Exec Cons := consIntrData bytes cons

/-- `cons_getc()`, with the bytes that the serial port and the keyboard have ready. -/
def consGetc (serialExists : Bool) (serial kbd : List UInt8) (cons : Cons) :
    Exec (Int × Cons) := do
  -- poll for any pending input characters
  let cons ← serialIntr serialExists serial cons
  let cons ← kbdIntr kbd cons
  -- grab the next character from the input buffer
  if cons.rpos ≠ cons.wpos then
    if cons.rpos < CONSBUFSIZE then
      let c := cons.buf cons.rpos
      let rpos := cons.rpos + 1
      pure (c.toNat, { cons with rpos := if rpos = CONSBUFSIZE then 0 else rpos })
    else .error .outOfBounds
  else pure (0, cons)

/-! ### Runs -/

/-- What happens to the buffer: a device interrupt, or a call of `cons_getc`. -/
inductive ConsOp where
  | intr (burst : List UInt8)
  | getc (serial kbd : List UInt8)

/-- A run, with the results of its `cons_getc` calls in order. -/
def consRun (serialExists : Bool) : List ConsOp → Cons → Exec (List Int × Cons)
  | [], cons => pure ([], cons)
  | .intr burst :: ops, cons => do
    let cons ← consIntrData burst cons
    consRun serialExists ops cons
  | .getc serial kbd :: ops, cons => do
    let (c, cons) ← consGetc serialExists serial kbd cons
    let (results, cons) ← consRun serialExists ops cons
    pure (c :: results, cons)

end Jos
