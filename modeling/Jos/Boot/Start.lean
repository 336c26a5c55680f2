import Jos.Inc.MmuSegments
import Jos.Library.Polling
import Mathlib.Data.List.GetD

/-!
# boot/boot.S

From real mode with address line 20 tied low into 32-bit protected mode, up to the call of
`bootmain`. The keyboard controller, which switches the address line, takes as long as it likes
for what is written to it.
-/
namespace Jos

open Library

/-! ### The keyboard controller -/

/-- A byte that has been written to the controller. -/
structure InputByte where
  /-- For how many more reads of the status or other instructions it is in the input buffer. -/
  left : Nat
  /-- It was written to 0x64. -/
  command : Bool
  data : BitVec 8

structure KeyboardController where
  input : Option InputByte
  /-- For how long the bytes to come are going to be in the input buffer. -/
  delays : Nat → Nat
  written : Nat
  /-- The next data is for the output port. -/
  expecting : Bool
  outputPort : BitVec 8
  /-- The processor was reset through the output port. -/
  wasReset : Bool
  /-- A byte was lost, or went to the keyboard. -/
  misused : Bool
  /-- The other bits of the status. -/
  noise : Nat → BitVec 8
  polls : Nat

namespace KeyboardController

/-- The controller takes a byte from the input buffer. Commands from 0xF0 on pulse the lines of the
output port of which they have the bit off. -/
def take (k : KeyboardController) (b : InputByte) : KeyboardController :=
  let k := { k with input := none }
  if b.command then
    { k with
      expecting := b.data = 0xD1
      wasReset := k.wasReset || (b.data &&& 0xF0 = 0xF0 && !b.data.getLsbD 0) }
  else if k.expecting then
    { k with
      expecting := false
      outputPort := b.data
      wasReset := k.wasReset || !b.data.getLsbD 0 }
  else { k with misused := true }

/-- What the controller does during an instruction. -/
def tick (k : KeyboardController) : KeyboardController :=
  match k.input with
  | none => k
  | some ⟨0, command, data⟩ => k.take ⟨0, command, data⟩
  | some ⟨left + 1, command, data⟩ => { k with input := some ⟨left, command, data⟩ }

/-- For how long the input buffer is full. -/
def busy (k : KeyboardController) : Nat :=
  match k.input with
  | none => 0
  | some b => b.left + 1

/-- `inb $0x64,%al` -/
def status (k : KeyboardController) : BitVec 8 × KeyboardController :=
  (k.noise k.polls &&& 0xFD ||| (if k.busy = 0 then 0 else 0x2),
    { k.tick with polls := k.polls + 1 })

/-- `outb` to 0x60 or 0x64. A byte that is written while the input buffer is full is lost. -/
def outb (k : KeyboardController) (data : BitVec 8) (port : BitVec 16) : KeyboardController :=
  if k.busy ≠ 0 then { k with misused := true }.tick
  else
    { k with
      input := some ⟨k.delays k.written, port = 0x64, data⟩
      written := k.written + 1 }.tick

/-- Address line 20 is not tied low. -/
def a20 (k : KeyboardController) : Bool := k.outputPort.getLsbD 1

/-- The controller when it has taken what it was given. -/
def settled (k : KeyboardController) : KeyboardController :=
  match k.input with
  | none => k
  | some b => k.take b

end KeyboardController

/-! ### The processor -/

inductive SegReg where
  | cs | ds | es | fs | gs | ss
  deriving DecidableEq

structure BootMachine where
  mem : Mem
  keyboard : KeyboardController
  segs : SegReg → Segment
  gdtr : TableRegister
  cr0 : BitVec 32
  esp : BitVec 32
  /-- interrupts enabled -/
  interrupts : Bool
  /-- String operations decrement. -/
  down : Bool

namespace BootMachine

/-- What address line 20 makes of an address. -/
def bus (s : BootMachine) (a : BitVec 32) : BitVec 32 :=
  if s.keyboard.a20 then a else a &&& ~~~0x100000#32

def setSeg (s : BootMachine) (r : SegReg) (seg : Segment) : BootMachine :=
  { s with segs := Function.update s.segs r seg }

/-- Loading a segment register in real mode. -/
def movReal (s : BootMachine) (r : SegReg) (ax : BitVec 16) : BootMachine :=
  s.setSeg r ⟨ax.setWidth 32 <<< 4, 0xFFFF, 0x3, true, 0, true, false⟩

def tick (s : BootMachine) : BootMachine := { s with keyboard := s.keyboard.tick }

/-- Loading a segment register in protected mode, with a fault unless the segment fits. It sets the
accessed bit of the descriptor in memory. -/
def movProtected (s : BootMachine) (r : SegReg) (selector : BitVec 16) : Exec BootMachine :=
  match s.gdtr.descriptor (fun a => s.mem (s.bus a)) selector with
  | some seg =>
    if (if r = .cs then seg.executable else seg.allows false && (r ≠ .ss || seg.allows true)) then
      let a := s.bus (s.gdtr.place selector + 5)
      let s := { s with mem := Function.update s.mem a (s.mem a ||| 1) }
      .ok (s.setSeg r seg.accessed).tick
    else .error .badArgument
  | none => .error .badArgument

/-- `lgdt`, which takes 24 bits of the base in 16-bit code -/
def lgdt (s : BootMachine) (a : BitVec 32) : BootMachine :=
  let m : Mem := fun b => s.mem (s.bus b)
  { s with gdtr := ⟨load16 m a, load32 m (a + 2) &&& 0xFFFFFF#32⟩ }.tick

/-- `orl %eax, %cr0`, by way of a register -/
def orCr0 (s : BootMachine) (bits : BitVec 32) : BootMachine :=
  { s with cr0 := s.cr0 ||| bits }.tick

/-- `pushl`, through the stack segment -/
def push (s : BootMachine) (v : BitVec 32) : Exec BootMachine :=
  match (s.segs .ss).linear (s.esp - 4) with
  | some a => .ok { s with esp := s.esp - 4, mem := store32 s.mem (s.bus a) v }.tick
  | none => .error .outOfBounds

end BootMachine

/-! ### start -/

def PROT_MODE_CSEG : BitVec 16 := 0x8
def PROT_MODE_DSEG : BitVec 16 := 0x10
def CR0_PE_ON : BitVec 32 := 0x1

/-- `seta20.1` and `seta20.2` -/
def seta20 (fuel : Nat) (k : KeyboardController) : Exec KeyboardController := do
  -- Wait for not busy
  let k ← spin KeyboardController.status (fun al => al &&& 0x2 = 0) fuel k
  -- 0xd1 -> port 0x64
  let k := k.outb 0xD1 0x64
  -- Wait for not busy
  let k ← spin KeyboardController.status (fun al => al &&& 0x2 = 0) fuel k
  -- 0xdf -> port 0x60
  pure (k.outb 0xDF 0x60)

/-- `protcseg` up to the call of `bootmain` -/
def protcseg (start afterCall : BitVec 32) (s : BootMachine) : Exec BootMachine := do
  -- Set up the protected-mode data segment registers
  let s ← s.movProtected .ds PROT_MODE_DSEG
  let s ← s.movProtected .es PROT_MODE_DSEG
  let s ← s.movProtected .fs PROT_MODE_DSEG
  let s ← s.movProtected .gs PROT_MODE_DSEG
  let s ← s.movProtected .ss PROT_MODE_DSEG
  -- Set up the stack pointer and call into C.
  { s with esp := start }.push afterCall

/-- `start` up to `seta20.1`, where the time of the keyboard controller starts -/
def start16 (s : BootMachine) : BootMachine :=
  let s := { s with interrupts := false }
  let s := { s with down := false }
  -- Set up the important data segment registers (DS, ES, SS).
  ((s.movReal .ds 0).movReal .es 0).movReal .ss 0

def BootMachine.setKeyboard (s : BootMachine) (keyboard : KeyboardController) : BootMachine :=
  { s with keyboard }

/-- From `start` to the call of `bootmain`; the labels are parameters. -/
def bootStart (fuel : Nat) (start gdtdesc afterCall : BitVec 32) (s : BootMachine) :
    Exec BootMachine := do
  let s := start16 s
  -- Enable A20
  let keyboard ← seta20 fuel s.keyboard
  let s := s.setKeyboard keyboard
  -- There is no wait for 0xdf: address line 20 may still be tied low.
  -- Switch from real to protected mode
  let s := s.lgdt gdtdesc
  let s := s.orCr0 CR0_PE_ON
  -- Jump to next instruction, but in 32-bit code segment.
  let s ← s.movProtected .cs PROT_MODE_CSEG
  protcseg start afterCall s

/-- Bootstrap GDT -/
def gdt : List (BitVec 8) :=
  asmSegNull ++ asmSeg (STA_X ||| STA_R) 0 0xFFFFFFFF ++ asmSeg STA_W 0 0xFFFFFFFF

/-- `gdtdesc` for the table at `gdt` -/
def gdtdescBytes (gdt : BitVec 32) : List (BitVec 8) :=
  asmWord 0x17 ++ asmWord gdt ++ asmWord (gdt >>> 16)

/-! ### Address line 20 -/

namespace KeyboardController

theorem take_polls (k : KeyboardController) (b : InputByte) (n : Nat) :
    { k with polls := n }.take b = { k.take b with polls := n } := by
  unfold take
  dsimp only
  split
  · rfl
  · split <;> rfl

theorem settled_polls (k : KeyboardController) (n : Nat) :
    { k with polls := n }.settled = { k.settled with polls := n } := by
  unfold settled
  dsimp only
  split
  · rfl
  · exact take_polls k _ n

/-- Of the input buffer and the times nothing else changes. -/
theorem take_kept (k : KeyboardController) (b : InputByte) :
    (k.take b).input = none ∧ (k.take b).delays = k.delays ∧ (k.take b).written = k.written := by
  unfold take
  dsimp only
  split
  · exact ⟨rfl, rfl, rfl⟩
  · split <;> exact ⟨rfl, rfl, rfl⟩

theorem settled_times (k : KeyboardController) :
    k.settled.delays = k.delays ∧ k.settled.written = k.written := by
  rw [settled]
  split
  · exact ⟨rfl, rfl⟩
  · exact (k.take_kept _).2

theorem settled_input (k : KeyboardController) : k.settled.input = none := by
  rcases here : k.input with _ | b
  · rwa [settled, here]
  · rw [settled, here]
    exact (k.take_kept b).1

theorem settled_idle {k : KeyboardController} (idle : k.busy = 0) : k.settled = k := by
  rcases here : k.input with _ | b
  · rw [settled, here]
  · rw [busy, here] at idle
    cases idle

theorem busy_tick (k : KeyboardController) : k.tick.busy = k.busy - 1 := by
  rcases here : k.input with _ | ⟨_ | left, command, data⟩
  · simp [tick, busy, here]
  · simp [tick, busy, here, take_kept]
  · simp [tick, busy, here]

theorem settled_tick (k : KeyboardController) : k.tick.settled = k.settled := by
  rcases here : k.input with _ | ⟨_ | left, command, data⟩
  · simp [tick, settled, here]
  · simp [tick, settled, here, take_kept]
  · simp [tick, settled, here, take]

theorem settled_ticks (n : Nat) (k : KeyboardController) : (tick^[n] k).settled = k.settled := by
  induction n generalizing k with
  | zero => rfl
  | succ n ih => rw [Function.iterate_succ_apply, ih, settled_tick]

theorem busy_ticks (n : Nat) (k : KeyboardController) : (tick^[n] k).busy = k.busy - n := by
  induction n generalizing k with
  | zero => rfl
  | succ n ih =>
    rw [Function.iterate_succ_apply, ih, busy_tick]
    omega

/-- Sooner or later it is settled. -/
theorem ticks_settled {n : Nat} {k : KeyboardController} (long : k.busy ≤ n) :
    tick^[n] k = k.settled := by
  rw [← settled_ticks n k, settled_idle]
  rw [busy_ticks, Nat.sub_eq_zero_of_le long]

theorem outb_idle {k : KeyboardController} (idle : k.busy = 0) (data : BitVec 8)
    (port : BitVec 16) :
    (k.outb data port).busy = k.delays k.written ∧
      (k.outb data port).settled =
        { k with written := k.written + 1 }.take ⟨k.delays k.written, port = 0x64, data⟩ := by
  rw [outb, if_neg (not_not_intro idle), busy_tick, settled_tick]
  exact ⟨rfl, rfl⟩

/-- 0xd1: the next data is for the output port. -/
theorem take_command (k : KeyboardController) (left : Nat) :
    (k.take ⟨left, true, 0xD1⟩).expecting = true ∧
      (k.take ⟨left, true, 0xD1⟩).misused = k.misused ∧
      (k.take ⟨left, true, 0xD1⟩).wasReset = k.wasReset := by
  simp [take]

/-- 0xdf: address line 20 is on, and the processor goes on. -/
theorem take_port {k : KeyboardController} (expecting : k.expecting = true) (left : Nat) :
    (k.take ⟨left, false, 0xDF⟩).a20 = true ∧
      (k.take ⟨left, false, 0xDF⟩).misused = k.misused ∧
      (k.take ⟨left, false, 0xDF⟩).wasReset = k.wasReset := by
  simp [take, a20, expecting]

end KeyboardController

theorem keyboardStatus_bits (full : Bool) (n : BitVec 8) :
    (n &&& 0xFD ||| (if full then 0x2 else 0)) &&& 0x2 = 0 ↔ ¬full := by
  revert full n
  decide +kernel

theorem keyboard_wears :
    Wears KeyboardController.status (fun al => al &&& 0x2 = 0) KeyboardController.busy where
  status k := by
    have bits := keyboardStatus_bits (decide (k.busy ≠ 0)) (k.noise k.polls)
    simp only [ne_eq, decide_not, Bool.not_eq_true', decide_eq_false_iff_not, ite_not,
      decide_eq_true_eq, not_not] at bits ⊢
    exact bits
  wears k := k.busy_tick

theorem reads_keyboardStatus (n : Nat) (k : KeyboardController) :
    (reads KeyboardController.status n k).settled = { k.settled with polls := k.polls + n } := by
  induction n generalizing k with
  | zero => exact k.settled_polls k.polls
  | succ n ih =>
    rw [reads, ih, KeyboardController.status]
    dsimp only
    rw [KeyboardController.settled_polls, KeyboardController.settled_tick, Nat.add_assoc,
      Nat.add_comm 1 n]

theorem waitKeyboard_eq {fuel : Nat} {k : KeyboardController} (ready : k.busy < fuel) :
    ∃ polls, spin KeyboardController.status (fun al => al &&& 0x2 = 0) fuel k =
      .ok { k.settled with polls } ∧ { k.settled with polls }.busy = 0 := by
  have idle := keyboard_wears.busy_reads (k.busy + 1) k
  refine ⟨k.polls + (k.busy + 1), ?_, ?_⟩
  · rw [keyboard_wears.spin ready, ← reads_keyboardStatus, KeyboardController.settled_idle]
    rw [idle, Nat.sub_eq_zero_of_le (Nat.le_succ _)]
  · rw [KeyboardController.busy]
    dsimp only
    rw [k.settled_input]

/-- Both bytes find the input buffer empty, and the second one may stay in it. -/
theorem seta20_eq {fuel : Nat} {k : KeyboardController} (ready : k.busy < fuel)
    (delay : k.delays k.written < fuel) :
    ∃ k', seta20 fuel k = .ok k' ∧ k'.settled.a20 = true ∧
      k'.settled.misused = k.settled.misused ∧ k'.settled.wasReset = k.settled.wasReset := by
  obtain ⟨polls, wait, idle⟩ := waitKeyboard_eq ready
  have times := k.settled_times
  generalize first : { k.settled with polls } = k₁ at wait idle
  obtain ⟨busy, taken⟩ := KeyboardController.outb_idle idle 0xD1 0x64
  have ready' : (k₁.outb 0xD1 0x64).busy < fuel := by
    rw [busy, ← first]
    dsimp only
    rwa [times.1, times.2]
  obtain ⟨polls', wait', idle'⟩ := waitKeyboard_eq ready'
  obtain ⟨expecting, misused, wasReset⟩ :=
    { k₁ with written := k₁.written + 1 }.take_command (k₁.delays k₁.written)
  have taken : (k₁.outb 0xD1 0x64).settled =
    { k₁ with written := k₁.written + 1 }.take ⟨k₁.delays k₁.written, true, 0xD1⟩ := taken
  rw [← taken] at expecting misused wasReset
  obtain ⟨-, taken'⟩ := KeyboardController.outb_idle idle' 0xDF 0x60
  refine ⟨_, by rw [seta20, wait, Exec.ok_bind]; dsimp only; rw [wait', Exec.ok_bind]; rfl, ?_⟩
  rw [taken']
  obtain ⟨a20, misused', wasReset'⟩ := KeyboardController.take_port
    (k := { (k₁.outb 0xD1 0x64).settled with
      polls := polls', written := (k₁.outb 0xD1 0x64).settled.written + 1 }) expecting
    ((k₁.outb 0xD1 0x64).settled.delays (k₁.outb 0xD1 0x64).settled.written)
  exact ⟨a20, misused'.trans (misused.trans (by rw [← first])),
    wasReset'.trans (wasReset.trans (by rw [← first]))⟩

/-! ### The descriptors -/

/-- Bytes in memory from `a` on. -/
def BytesAt (m : Mem) (a : BitVec 32) (bytes : List (BitVec 8)) : Prop :=
  ∀ i < bytes.length, m (a + BitVec.ofNat 32 i) = bytes.getD i 0

theorem BytesAt.append {m : Mem} {a : BitVec 32} {xs ys : List (BitVec 8)}
    (held : BytesAt m a (xs ++ ys)) :
    BytesAt m a xs ∧ BytesAt m (a + BitVec.ofNat 32 xs.length) ys := by
  constructor
  · intro i inside
    rw [held i (by rw [List.length_append]; omega), List.getD_append _ _ _ _ inside]
  · intro i inside
    rw [BitVec.add_assoc, ← BitVec.ofNat_add, held _ (by rw [List.length_append]; omega),
      List.getD_append_right _ _ _ _ (Nat.le_add_right _ _), Nat.add_sub_cancel_left]

theorem BytesAt.segment {m : Mem} {a type : BitVec 32} (small : type.toNat < 16)
    {base lim : BitVec 32} (held : BytesAt m a (asmSeg type base lim)) :
    Segment.decode (load64 m a) =
      ⟨base, lim ||| 0xFFF#32, type.setWidth 4, true, 0, true, true⟩ := by
  rw [asmSeg_eq small] at held
  rw [load64_bytes (w := (SEG type base lim 0).word), SEG_decode]
  · rfl
  · intro i inside
    have byte := held i (by rw [Segdesc.bytes, List.length_map, List.length_range]; exact inside)
    simpa [Segdesc.bytes, inside] using byte

theorem BytesAt.update {m : Mem} {a : BitVec 32} {bytes : List (BitVec 8)}
    (held : BytesAt m a bytes) (short : bytes.length ≤ 0x100000000) {k : Nat}
    (inside : k < bytes.length) (v : BitVec 8) :
    BytesAt (Function.update m (a + BitVec.ofNat 32 k) v) a (bytes.set k v) := by
  intro i within
  rw [List.length_set] at within
  rw [List.getD_eq_getElem?_getD, List.getElem?_set]
  by_cases same : k = i
  · rw [← same, Function.update_self, if_pos rfl, if_pos inside]
    rfl
  · have apart : a + BitVec.ofNat 32 i ≠ a + BitVec.ofNat 32 k := by
      intro equal
      bv_omega
    rw [Function.update_of_ne apart, if_neg same, held i within, List.getD_eq_getElem?_getD]

/-- The boot sector with its descriptor table, linked at these addresses. -/
structure BootSector (m : Mem) (table desc : BitVec 32) : Prop where
  gdt : BytesAt m table gdt
  gdtdesc : BytesAt m desc (gdtdescBytes table)
  low : table.toNat < 0x7E00 ∧ desc.toNat < 0x7E00

/-- The table with other types for its segments -/
def gdtOf (code data : BitVec 32) : List (BitVec 8) :=
  asmSegNull ++ asmSeg code 0 0xFFFFFFFF ++ asmSeg data 0 0xFFFFFFFF

theorem gdtOf_length (code data : BitVec 32) : (gdtOf code data).length = 24 := rfl

theorem gdtOf_descriptors {m : Mem} {table code data : BitVec 32}
    (small : code.toNat < 16 ∧ data.toNat < 16) (held : BytesAt m table (gdtOf code data)) :
    (TableRegister.mk 0x17 table).descriptor m PROT_MODE_CSEG =
        some ⟨0, 0xFFFFFFFF, code.setWidth 4, true, 0, true, true⟩ ∧
      (TableRegister.mk 0x17 table).descriptor m PROT_MODE_DSEG =
        some ⟨0, 0xFFFFFFFF, data.setWidth 4, true, 0, true, true⟩ := by
  obtain ⟨first, second⟩ := held.append
  obtain ⟨-, first⟩ := first.append
  have code' := BytesAt.segment small.1 first
  have data' := BytesAt.segment small.2 second
  constructor
  · have within : 8 * 1 + 7 ≤ BitVec.toNat 0x17#16 := by decide
    exact (TableRegister.descriptor_eq 1 rfl rfl (by decide) within m).trans (congrArg some code')
  · have within : 8 * 2 + 7 ≤ BitVec.toNat 0x17#16 := by decide
    exact (TableRegister.descriptor_eq 2 rfl rfl (by decide) within m).trans (congrArg some data')

/-- `lgdt` finds the table, though it takes no more than 24 bits of its address. -/
theorem BootSector.lgdt {m : Mem} {table desc : BitVec 32} (sector : BootSector m table desc) :
    load16 m desc = 0x17 ∧ load32 m (desc + 2) &&& 0xFFFFFF#32 = table := by
  have low := sector.low
  have byte (i : Nat) (inside : i < 6) : m (desc + BitVec.ofNat 32 i) =
      (gdtdescBytes table).getD i 0 := sector.gdtdesc i inside
  have first : m desc = 0x17 := (congrArg m (BitVec.add_zero desc).symm).trans (byte 0 (by decide))
  have second : m (desc + 1) = 0 := byte 1 (by decide)
  have place (k : Nat) : desc + 2 + BitVec.ofNat 32 k = desc + BitVec.ofNat 32 (2 + k) := by
    bv_omega
  have word : load32 m (desc + 2) = table := by
    have b₀ : m (desc + 2) = table.extractLsb' 0 8 := (byte 2 (by decide)).trans (part_eq table 0 8)
    have b₁ : m (desc + 2 + 1) = table.extractLsb' 8 8 :=
      (congrArg m (place 1)).trans ((byte 3 (by decide)).trans (part_eq table 8 8))
    have b₂ : m (desc + 2 + 2) = table.extractLsb' 16 8 :=
      (congrArg m (place 2)).trans ((byte 4 (by decide)).trans (part_eq table 16 8))
    have b₃ : m (desc + 2 + 3) = table.extractLsb' 24 8 := by
      refine (congrArg m (place 3)).trans ((byte 5 (by decide)).trans ?_)
      exact (congrArg (BitVec.setWidth 8) (BitVec.shiftRight_add _ 16 8).symm).trans
        (part_eq table 24 8)
    rw [load32, b₀, b₁, b₂, b₃, word_bytes]
  refine ⟨by rw [load16, first, second]; rfl, ?_⟩
  rw [word, ← BitVec.toNat_inj, BitVec.toNat_and]
  exact (Nat.and_two_pow_sub_one_eq_mod _ 24).trans (Nat.mod_eq_of_lt (by omega))

/-! ### The switch -/

def codeSegment : Segment := ⟨0, 0xFFFFFFFF, 0xB, true, 0, true, true⟩
def dataSegment : Segment := ⟨0, 0xFFFFFFFF, 0x3, true, 0, true, true⟩

section Switch

variable {s : BootMachine} {table desc : BitVec 32}

/-- Below 1MB address line 20 makes no difference. -/
theorem BootMachine.bus_low (s : BootMachine) {a : BitVec 32} (low : a.toNat < 0x100000) :
    s.bus a = a := by
  have short : a = a &&& 0xFFFFF#32 := by
    rw [← BitVec.toNat_inj, BitVec.toNat_and]
    exact ((Nat.and_two_pow_sub_one_eq_mod _ 20).trans (Nat.mod_eq_of_lt low)).symm
  rw [BootMachine.bus]
  split
  · rfl
  · rw [short, BitVec.and_assoc]
    rfl

theorem BootMachine.bus_eq (on : s.keyboard.a20 = true) (a : BitVec 32) : s.bus a = a := by
  rw [BootMachine.bus, if_pos on]

theorem BytesAt.bus {a : BitVec 32} {bytes : List (BitVec 8)} (held : BytesAt s.mem a bytes)
    (low : a.toNat + bytes.length ≤ 0x100000) :
    BytesAt (fun a => s.mem (s.bus a)) a bytes := by
  intro i inside
  dsimp only
  rw [s.bus_low (by bv_omega), held i inside]

theorem lgdt_eq (sector : BootSector s.mem table desc) :
    s.lgdt desc = { s with gdtr := ⟨0x17, table⟩, keyboard := s.keyboard.tick } := by
  obtain ⟨tableLow, descLow⟩ := sector.low
  have length : (gdtdescBytes table).length = 6 := rfl
  have seen : BootSector (fun a => s.mem (s.bus a)) table desc :=
    ⟨sector.gdt.bus (by rw [show gdt.length = 24 from rfl]; omega),
      sector.gdtdesc.bus (by omega), tableLow, descLow⟩
  rw [BootMachine.lgdt, seen.lgdt.1, seen.lgdt.2]
  rfl

theorem movProtected_eq {r : SegReg} {selector : BitVec 16} {seg : Segment}
    (found : s.gdtr.descriptor (fun a => s.mem (s.bus a)) selector = some seg)
    (fits : (if r = .cs then seg.executable else seg.allows false && (r ≠ .ss || seg.allows true)) =
      true) (low : (s.gdtr.place selector + 5).toNat < 0x100000) {v : BitVec 8}
    (mark : s.mem (s.gdtr.place selector + 5) ||| 1 = v) :
    s.movProtected r selector = .ok { s with
      mem := Function.update s.mem (s.gdtr.place selector + 5) v
      segs := Function.update s.segs r seg.accessed
      keyboard := s.keyboard.tick } := by
  rw [BootMachine.movProtected, found]
  dsimp only
  rw [if_pos fits, s.bus_low low, mark]
  rfl

/-- The register is loaded, and the table is where it says. -/
structure Loaded (s : BootMachine) (table code data : BitVec 32) : Prop where
  gdtr : s.gdtr = ⟨0x17, table⟩
  held : BytesAt s.mem table (gdtOf code data)
  low : table.toNat < 0x7E00

theorem ljmp_eq (loaded : Loaded s table (STA_X ||| STA_R) STA_W) :
    s.movProtected .cs PROT_MODE_CSEG = .ok { s with
      mem := Function.update s.mem (table + 13) 0x9B
      segs := Function.update s.segs .cs codeSegment
      keyboard := s.keyboard.tick } := by
  obtain ⟨gdtr, held, low⟩ := loaded
  have byte : s.mem (table + 13) = 0x9A := held 13 (by decide)
  have place : s.gdtr.place PROT_MODE_CSEG + 5 = table + 13 := by
    rw [gdtr]
    exact BitVec.add_assoc table 8 5
  have seen := held.bus (by rw [gdtOf_length]; omega)
  have found : s.gdtr.descriptor (fun a => s.mem (s.bus a)) PROT_MODE_CSEG =
      some ⟨0, 0xFFFFFFFF, 0xA, true, 0, true, true⟩ := by
    rw [gdtr]
    exact (gdtOf_descriptors (by decide) seen).1
  have mark : s.mem (s.gdtr.place PROT_MODE_CSEG + 5) ||| 1 = 0x9B := by
    rw [place, byte]
    rfl
  rw [movProtected_eq found (by decide) (by rw [place]; bv_omega) mark, place]
  rfl

/-- Loading the segment for the first time or again. -/
theorem movData_eq {code data : BitVec 32} (loaded : Loaded s table code data)
    (small : code.toNat < 16) (type : data = STA_W ∨ data = 0x3) {r : SegReg} (other : r ≠ .cs) :
    s.movProtected r PROT_MODE_DSEG = .ok { s with
      mem := Function.update s.mem (table + 21) 0x93
      segs := Function.update s.segs r dataSegment
      keyboard := s.keyboard.tick } := by
  obtain ⟨gdtr, held, low⟩ := loaded
  have place : s.gdtr.place PROT_MODE_DSEG + 5 = table + 21 := by
    rw [gdtr]
    exact BitVec.add_assoc table 16 5
  have byte : s.mem (table + 21) ||| 1 = 0x93 := by
    have here : s.mem (table + 21) = (0x90#32 ||| data).setWidth 8 :=
      held 21 (by rw [gdtOf_length]; decide)
    rw [here]
    rcases type with rfl | rfl <;> rfl
  have seen := held.bus (by rw [gdtOf_length]; omega)
  have found : s.gdtr.descriptor (fun a => s.mem (s.bus a)) PROT_MODE_DSEG =
      some ⟨0, 0xFFFFFFFF, data.setWidth 4, true, 0, true, true⟩ := by
    rw [gdtr]
    exact (gdtOf_descriptors ⟨small, by rcases type with rfl | rfl <;> decide⟩ seen).2
  have fits : ((⟨0, 0xFFFFFFFF, data.setWidth 4, true, 0, true, true⟩ : Segment).allows false &&
      (r ≠ .ss || (⟨0, 0xFFFFFFFF, data.setWidth 4, true, 0, true, true⟩ : Segment).allows true)) =
      true := by
    rcases type with rfl | rfl <;> cases r <;> rfl
  rw [movProtected_eq found (by rw [if_neg other]; exact fits) (by rw [place]; bv_omega)
    (by rw [place, byte]), place]
  rcases type with rfl | rfl <;> rfl

theorem push_eq (flat : (s.segs .ss).Flat) (low : (s.esp - 4).toNat < 0x100000) (v : BitVec 32) :
    s.push v = .ok { s with
      esp := s.esp - 4
      mem := store32 s.mem (s.esp - 4) v
      keyboard := s.keyboard.tick } := by
  rw [BootMachine.push, flat.linear]
  dsimp only
  rw [s.bus_low low]
  rfl

/-- The memory when the selectors have been loaded -/
def marked (m : Mem) (table : BitVec 32) : Mem :=
  Function.update (Function.update m (table + 13) 0x9B) (table + 21) 0x93

theorem protcseg_eq {code : BitVec 32} (loaded : Loaded s table code STA_W)
    (small : code.toNat < 16) {start : BitVec 32} (low : (start - 4).toNat < 0x100000)
    (afterCall : BitVec 32) :
    protcseg start afterCall s =
      .ok { s with
        segs := fun r => if r = .cs then s.segs .cs else dataSegment
        esp := start - 4
        mem := store32 (Function.update s.mem (table + 21) 0x93) (start - 4) afterCall
        keyboard := KeyboardController.tick^[6] s.keyboard } := by
  have again (segs : SegReg → Segment) (k : KeyboardController) : Loaded { s with
      mem := Function.update s.mem (table + 21) 0x93, segs := segs, keyboard := k }
      table code 0x3 := by
    refine ⟨loaded.gdtr, ?_, loaded.low⟩
    have marks : (gdtOf code STA_W).set 21 0x93 = gdtOf code 0x3 := rfl
    rw [← marks]
    exact loaded.held.update (by rw [gdtOf_length]; decide) (by rw [gdtOf_length]; decide) 0x93
  have next {r : SegReg} (other : r ≠ .cs) (segs : SegReg → Segment) (k : KeyboardController) :
      BootMachine.movProtected { s with
          mem := Function.update s.mem (table + 21) 0x93, segs := segs, keyboard := k }
        r PROT_MODE_DSEG = .ok { s with
          mem := Function.update s.mem (table + 21) 0x93
          segs := Function.update segs r dataSegment
          keyboard := k.tick } := by
    rw [movData_eq (again segs k) small (.inr rfl) other]
    dsimp only
    rw [Function.update_idem]
  have all : Function.update (Function.update (Function.update (Function.update
      (Function.update s.segs .ds dataSegment) .es dataSegment) .fs dataSegment) .gs
      dataSegment) .ss dataSegment = fun r => if r = .cs then s.segs .cs else dataSegment := by
    funext r
    cases r <;> rfl
  rw [protcseg, movData_eq loaded small (.inl rfl) (by decide), Exec.ok_bind, next (by decide),
    Exec.ok_bind, next (by decide), Exec.ok_bind, next (by decide), Exec.ok_bind,
    next (by decide), Exec.ok_bind, all]
  rw [push_eq ⟨rfl, rfl⟩ low]
  rfl

/-- The machine when `bootmain` is called -/
def BootMachine.entered (s : BootMachine) (k : KeyboardController) (table start : BitVec 32)
    (afterCall : BitVec 32) : BootMachine where
  mem := store32 (marked s.mem table) (start - 4) afterCall
  keyboard := k
  segs r := if r = .cs then codeSegment else dataSegment
  gdtr := ⟨0x17, table⟩
  cr0 := s.cr0 ||| CR0_PE_ON
  esp := start - 4
  interrupts := false
  down := false

theorem bootStart_eq (sector : BootSector s.mem table desc) {fuel : Nat}
    (ready : s.keyboard.busy < fuel) (delay : s.keyboard.delays s.keyboard.written < fuel)
    {start : BitVec 32} (low : (start - 4).toNat < 0x7E00) (afterCall : BitVec 32) :
    ∃ k', bootStart fuel start desc afterCall s = .ok (s.entered k' table start afterCall) ∧
      k'.settled.a20 = true ∧ k'.settled.misused = s.keyboard.settled.misused ∧
      k'.settled.wasReset = s.keyboard.settled.wasReset := by
  obtain ⟨k', a20, settled⟩ := seta20_eq ready delay
  have switched : ((start16 s).setKeyboard k').lgdt desc =
      { (start16 s).setKeyboard k' with gdtr := ⟨0x17, table⟩, keyboard := k'.tick } :=
    lgdt_eq (s := (start16 s).setKeyboard k') sector
  have first : Loaded (({ (start16 s).setKeyboard k' with
      gdtr := ⟨0x17, table⟩, keyboard := k'.tick } : BootMachine).orCr0 CR0_PE_ON) table
      (STA_X ||| STA_R) STA_W := ⟨rfl, sector.gdt, sector.low.1⟩
  refine ⟨KeyboardController.tick^[9] k', ?_, by rwa [KeyboardController.settled_ticks]⟩
  have second : Loaded { ({ (start16 s).setKeyboard k' with
      gdtr := ⟨0x17, table⟩, keyboard := k'.tick } : BootMachine).orCr0 CR0_PE_ON with
      mem := Function.update s.mem (table + 13) 0x9B
      segs := Function.update (start16 s).segs .cs codeSegment
      keyboard := k'.tick.tick.tick } table 0xB STA_W := by
    refine ⟨rfl, ?_, sector.low.1⟩
    have marks : gdt.set 13 0x9B = gdtOf 0xB STA_W := rfl
    rw [← marks]
    exact sector.gdt.update (by decide) (by decide) 0x9B
  rw [bootStart]
  dsimp only
  rw [show (start16 s).keyboard = s.keyboard from rfl, a20, Exec.ok_bind, switched, ljmp_eq first,
    Exec.ok_bind]
  exact (protcseg_eq second (by decide) (Nat.lt_trans low (by decide)) afterCall).trans rfl

/-- What is set up when `bootmain` is called: an offset in any segment is its address, and the
processor has marked the segments in the table. Address line 20 passes its bit once the keyboard
controller has taken the last byte. -/
structure Entered (s s' : BootMachine) (table start afterCall : BitVec 32) : Prop where
  address : ∀ r offset, (s'.segs r).linear offset = some offset
  code : (s'.segs .cs).executable = true ∧ (s'.segs .cs).wide = true
  data : ∀ r, r ≠ .cs → (s'.segs r).allows false = true ∧ (s'.segs r).allows true = true
  protection : s'.cr0 = s.cr0 ||| CR0_PE_ON
  quiet : s'.interrupts = false ∧ s'.down = false
  stack : s'.esp = start - 4
  mem : s'.mem = store32 (marked s.mem table) (start - 4) afterCall
  a20 : ∀ n, s'.keyboard.busy ≤ n → ∀ a, (BootMachine.tick^[n] s').bus a = a
  keyboard : s'.keyboard.settled.misused = s.keyboard.settled.misused ∧
    s'.keyboard.settled.wasReset = s.keyboard.settled.wasReset

theorem ticks_keyboard (n : Nat) (s : BootMachine) :
    (BootMachine.tick^[n] s).keyboard = KeyboardController.tick^[n] s.keyboard := by
  induction n generalizing s with
  | zero => rfl
  | succ n ih => rw [Function.iterate_succ_apply, ih, Function.iterate_succ_apply]; rfl

/-- However long the keyboard controller takes, and whatever is in the registers, boot.S gets to
`bootmain` with the address space as flat as the processor came with it, and address line 20 on or
about to be. -/
theorem bootStart_enters (sector : BootSector s.mem table desc) {fuel : Nat}
    (ready : s.keyboard.busy < fuel) (delay : s.keyboard.delays s.keyboard.written < fuel)
    {start : BitVec 32} (low : (start - 4).toNat < 0x7E00) (afterCall : BitVec 32) :
    ∃ s', bootStart fuel start desc afterCall s = .ok s' ∧ Entered s s' table start afterCall := by
  obtain ⟨k', entered, on, kept⟩ := bootStart_eq sector ready delay low afterCall
  refine ⟨_, entered, ?_, ?_, ?_, rfl, ⟨rfl, rfl⟩, rfl, rfl, ?_, kept⟩
  · intro r offset
    have flat : Segment.Flat (if r = .cs then codeSegment else dataSegment) := by
      split <;> exact ⟨rfl, rfl⟩
    exact flat.linear offset
  · dsimp only [BootMachine.entered]
    rw [if_pos rfl]
    exact ⟨rfl, rfl⟩
  · intro r other
    dsimp only [BootMachine.entered]
    rw [if_neg other]
    exact ⟨rfl, rfl⟩
  · intro n long a
    refine BootMachine.bus_eq ?_ a
    rw [ticks_keyboard, KeyboardController.ticks_settled long]
    exact on

end Switch

/-! ### A boot sector -/

/-- The table at 0x7C4C, its descriptor after it, and zeros. -/
def bootTables : Mem := fun a =>
  ((gdt ++ gdtdescBytes 0x7C4C)[(a - 0x7C4C#32).toNat]?).getD 0

/-- A keyboard controller with a command in its input buffer, which takes the last byte only after
`bootmain` has been called. -/
def resetMachine : BootMachine where
  mem := bootTables
  keyboard :=
    ⟨some ⟨3, true, 0xAE⟩, fun k => 5 + 7 * k, 0, false, 0xDD, false, false,
      fun k => .ofNat 8 (37 * k), 0⟩
  segs _ := ⟨0, 0xFFFF, 0x3, true, 0, true, false⟩
  gdtr := ⟨0xFFFF, 0⟩
  cr0 := 0x10
  esp := 0x6F00
  interrupts := true
  down := true

theorem bootTables_sector : BootSector bootTables 0x7C4C 0x7C64 where
  gdt := by
    unfold BytesAt
    decide +kernel
  gdtdesc := by
    unfold BytesAt
    decide +kernel
  low := by decide

theorem bootStart_enters_reset :
    ∃ s', bootStart 8 0x7C00 0x7C64 0x7C4A resetMachine = .ok s' ∧
      Entered resetMachine s' 0x7C4C 0x7C00 0x7C4A :=
  bootStart_enters bootTables_sector (by decide) (by decide) (by decide) 0x7C4A

end Jos
