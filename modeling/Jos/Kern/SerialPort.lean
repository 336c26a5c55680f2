import Jos.Kern.InputFifo
import Jos.Kern.PortOutput
import Jos.Library.Polling

/-!
# kern/console.c: the serial port

The driver of COM1 as it uses the ports, with a chip that takes as long as it likes to send a
byte. The driver turns the FIFOs off: a byte that is written while another one waits takes its
place, and so does one that arrives before the last has been read.
-/
namespace Jos

open Library

def COM_RX : BitVec 32 := 0
def COM_IER : BitVec 32 := 1
def COM_IER_RDI : BitVec 8 := 0x01
def COM_FCR : BitVec 32 := 2
def COM_LCR : BitVec 32 := 3
def COM_LCR_DLAB : BitVec 8 := 0x80
def COM_LCR_WLEN8 : BitVec 8 := 0x03
def COM_MCR : BitVec 32 := 4
def COM_LSR : BitVec 32 := 5
def COM_LSR_DATA : BitVec 8 := 0x01
def COM_LSR_TXRDY : BitVec 8 := 0x20

/-! ### The chip -/

/-- A character on the line, with the speed and the format that it is sent in. -/
structure LineFrame where
  data : BitVec 8
  divisor : BitVec 16
  format : BitVec 8
  deriving DecidableEq

structure Uart where
  dll : BitVec 8
  dlm : BitVec 8
  ier : BitVec 8
  fcr : BitVec 8
  lcr : BitVec 8
  mcr : BitVec 8
  /-- What has been sent, with the byte that waits at the end. -/
  line : List LineFrame
  /-- For how many more reads of the line status a byte waits. -/
  busy : Nat
  /-- The same for the bytes to come. -/
  delays : Nat → Nat
  written : Nat
  /-- What has arrived and has not been read. -/
  received : List (BitVec 8)
  /-- The other bits of the line status. -/
  noise : Nat → BitVec 8
  polls : Nat

namespace Uart

/-- The first two registers are the divisor latch. -/
def latched (u : Uart) : Bool := u.lcr &&& COM_LCR_DLAB ≠ 0

def lineStatus (u : Uart) : BitVec 8 × Uart :=
  (u.noise u.polls &&& 0x5E ||| (if u.busy = 0 then COM_LSR_TXRDY else 0) |||
      (if u.received = [] then 0 else COM_LSR_DATA),
    { u with busy := u.busy - 1, polls := u.polls + 1 })

def receive (u : Uart) : BitVec 8 × Uart :=
  if u.latched then (u.dll, u)
  else (u.received.headD 0, { u with received := u.received.tail })

/-- What has been sent, without the byte that waits. -/
def sent (u : Uart) : List LineFrame := if u.busy = 0 then u.line else u.line.dropLast

def transmit (u : Uart) (data : BitVec 8) : Uart :=
  { u with
    line := u.sent ++ [⟨data, u.dlm ++ u.dll, u.lcr⟩]
    busy := u.delays u.written
    written := u.written + 1 }

/-- Turning the FIFOs on or off clears them. -/
def control (u : Uart) (data : BitVec 8) : Uart :=
  if (u.fcr ^^^ data) &&& 0x01 = 0 then { u with fcr := data }
  else { u with fcr := data, received := [], line := u.sent, busy := 0 }

/-- A byte comes in. Without the FIFO there is room for one, and the new one takes the place of
one that has not been read; with it there is room for 16, and what comes then is lost. -/
def arrive (u : Uart) (b : BitVec 8) : Uart :=
  { u with received :=
      if u.fcr &&& 0x01 = 0 then [b]
      else if u.received.length < 16 then u.received ++ [b] else u.received }

end Uart

/-- Where there is no chip, all bits of what is read are set. -/
abbrev SerialPort := Option Uart

namespace SerialPort

def inb (port : BitVec 32) : SerialPort → BitVec 8 × SerialPort
  | none => (0xFF, none)
  | some u =>
    if port = COM1 + COM_LSR then (u.lineStatus.1, some u.lineStatus.2)
    else if port = COM1 + COM_RX then (u.receive.1, some u.receive.2)
    else (0, some u)

def outb (port : BitVec 32) (data : BitVec 8) : SerialPort → SerialPort
  | none => none
  | some u =>
    if port = COM1 + COM_TX then
      some (if u.latched then { u with dll := data } else u.transmit data)
    else if port = COM1 + COM_IER then
      some (if u.latched then { u with dlm := data } else { u with ier := data })
    else if port = COM1 + COM_FCR then some (u.control data)
    else if port = COM1 + COM_LCR then some { u with lcr := data }
    else if port = COM1 + COM_MCR then some { u with mcr := data }
    else some u

end SerialPort

/-! ### The driver -/

open SerialPort

/-- `serial_putc`, with the wait for the transmit buffer. -/
def serialPutcPort (p : SerialPort) (c : BitVec 8) : SerialPort :=
  outb (COM1 + COM_TX) c
    (spinFor (inb (COM1 + COM_LSR)) (fun lsr => lsr &&& COM_LSR_TXRDY ≠ 0) 12800 p)

theorem lineStatus_bits (ready data : Bool) (n : BitVec 8) :
    let status := n &&& 0x5E ||| (if ready then COM_LSR_TXRDY else 0) |||
      (if data then COM_LSR_DATA else 0)
    (status &&& COM_LSR_TXRDY ≠ 0 ↔ ready) ∧ (status &&& COM_LSR_DATA = 0 ↔ ¬data) ∧
      status ≠ 0xFF := by
  revert ready data n
  decide +kernel

theorem lineStatus_eq (u : Uart) :
    (u.lineStatus.1 &&& COM_LSR_TXRDY ≠ 0 ↔ u.busy = 0) ∧
      (u.lineStatus.1 &&& COM_LSR_DATA = 0 ↔ u.received = []) ∧ u.lineStatus.1 ≠ 0xFF := by
  have bits := lineStatus_bits (decide (u.busy = 0)) (decide (u.received ≠ [])) (u.noise u.polls)
  simp only [decide_eq_true_eq, ite_not] at bits
  obtain ⟨ready, data, present⟩ := bits
  exact ⟨ready, data.trans not_not, present⟩

def portBusy : SerialPort → Nat
  | none => 0
  | some u => u.busy

/-- A port without a chip is always ready. -/
theorem serial_wears :
    Wears (inb (COM1 + COM_LSR)) (fun lsr => lsr &&& COM_LSR_TXRDY ≠ 0) portBusy where
  status := by
    rintro (_ | u)
    · decide
    · rw [decide_eq_true_iff]
      exact (lineStatus_eq u).1
  wears := by
    rintro (_ | u) <;> rfl

theorem reads_lineStatus (k : Nat) (u : Uart) :
    reads (inb (COM1 + COM_LSR)) k (some u) =
      some { u with busy := u.busy - k, polls := u.polls + k } := by
  induction k generalizing u with
  | zero => rfl
  | succ k ih =>
    have next : (inb (COM1 + COM_LSR) (some u)).2 = some u.lineStatus.2 := rfl
    rw [reads, next, ih, Uart.lineStatus]
    congr 2 <;> dsimp only <;> omega

/-! ### Sending -/

/-- As `serial_init` leaves the chip: 9600 baud, 8 data bits, 1 stop bit, parity off. -/
structure Configured (u : Uart) : Prop where
  dll : u.dll = 12
  dlm : u.dlm = 0
  lcr : u.lcr = COM_LCR_WLEN8
  ier : u.ier = COM_IER_RDI
  fcr : u.fcr = 0
  mcr : u.mcr = 0

theorem Configured.unlatched {u : Uart} (configured : Configured u) : u.latched = false := by
  rw [Uart.latched, configured.lcr]
  decide

def configuredFrame (c : BitVec 8) : LineFrame := ⟨c, 12, COM_LCR_WLEN8⟩

theorem outb_transmit {u : Uart} (unlatched : u.latched = false) (c : BitVec 8) :
    outb (COM1 + COM_TX) c (some u) = some (u.transmit c) := by
  simp [outb, unlatched]

theorem serialPutcPort_eq {u : Uart} (configured : Configured u) (c : BitVec 8) :
    ∃ u', serialPutcPort (some u) c = some u' ∧ Configured u' ∧
      u'.line = (if u.busy ≤ 12801 then u.line else u.line.dropLast) ++ [configuredFrame c] ∧
      u'.busy = u.delays u.written ∧ u'.written = u.written + 1 ∧ u'.delays = u.delays ∧
      u'.received = u.received := by
  have unlatched := configured.unlatched
  obtain ⟨dll, dlm, lcr, ier, fcr, mcr⟩ := configured
  have waited : u.busy - (min (portBusy (some u)) 12800 + 1) = 0 ↔ u.busy ≤ 12801 := by
    rw [portBusy]
    omega
  rw [serialPutcPort, serial_wears.spinFor, reads_lineStatus, outb_transmit (by exact unlatched)]
  refine ⟨_, rfl, ⟨dll, dlm, lcr, ier, fcr, mcr⟩, ?_, rfl, rfl, rfl, rfl⟩
  refine congrArg₂ (· ++ ·) (if_congr waited rfl rfl) ?_
  dsimp only
  rw [dll, dlm, lcr]
  rfl

/-- The chip never holds a byte back for longer than `serial_putc` waits. -/
structure Prompt (u : Uart) : Prop extends Configured u where
  busy : u.busy ≤ 12801
  delays : ∀ k, u.delays k ≤ 12801

theorem Prompt.putc {u : Uart} (prompt : Prompt u) (c : BitVec 8) :
    ∃ u', serialPutcPort (some u) c = some u' ∧ Prompt u' ∧
      u'.line = u.line ++ [configuredFrame c] ∧ u'.received = u.received := by
  obtain ⟨configured, busy, delays⟩ := prompt
  obtain ⟨u', sent, configured', line, busy', -, delays', received⟩ :=
    serialPutcPort_eq configured c
  rw [if_pos busy] at line
  exact ⟨u', sent, ⟨configured', busy' ▸ delays _, delays' ▸ delays⟩, line, received⟩

theorem Prompt.status {u : Uart} (prompt : Prompt u) (received : List (BitVec 8)) :
    Prompt { u.lineStatus.2 with received := received } := by
  obtain ⟨⟨dll, dlm, lcr, ier, fcr, mcr⟩, busy, delays⟩ := prompt
  exact ⟨⟨dll, dlm, lcr, ier, fcr, mcr⟩, Nat.le_trans (Nat.sub_le _ _) busy, delays⟩

inductive SerialEvent where
  | arrive (b : BitVec 8)
  | putc (c : BitVec 8)
  | intr

/-- Another byte arrives before the next `serial_intr`. -/
def overrun : List SerialEvent → Bool
  | [] | .intr :: _ => false
  | .arrive _ :: _ => true
  | .putc _ :: events => overrun events

def SerialEvent.printed : SerialEvent → List (BitVec 8)
  | putc c => [c]
  | arrive _ | intr => []

theorem Prompt.arrive {u : Uart} (prompt : Prompt u) (b : BitVec 8) :
    Prompt (u.arrive b) ∧ (u.arrive b).received = [b] := by
  obtain ⟨⟨dll, dlm, lcr, ier, fcr, mcr⟩, busy, delays⟩ := prompt
  refine ⟨⟨⟨dll, dlm, lcr, ier, fcr, mcr⟩, busy, delays⟩, ?_⟩
  have off : u.fcr &&& 0x01 = 0 := by
    rw [fcr]
    decide
  exact if_pos off

end Jos
