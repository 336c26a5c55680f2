import Jos.Boot.IntactSegments
import Jos.Boot.SectorLoop
import Jos.Library.Polling

/-!
# boot/main.c: the disk controller

`waitdisk` and `readsect` as they use the ports. The disk is busy for as long as it likes after a
command, says what it likes in the bits of its status that do not matter, and notices when it is
not left alone. What the boot loader does through it is what `bootmain` does without it.
-/
namespace Jos

open Library

/-! ### The disk -/

/-- The first disk of the first channel. -/
structure Ide where
  disk : Disk
  /-- the register 0x1F2 -/
  count : BitVec 8
  task : TaskFile
  /-- For how many more reads of the status register the disk is busy. -/
  busy : Nat
  /-- The same for the commands to come. -/
  delays : Nat → Nat
  commands : Nat
  /-- The bits of the status register that the controller leaves open. -/
  noise : Nat → BitVec 8
  polls : Nat
  /-- What is left of the sectors that have been read. -/
  data : List (BitVec 8)
  misused : Bool

namespace Ide

def misuse (d : Ide) : Ide := { d with misused := true }

/-- `inb(0x1F7)`: busy, or ready and not busy. -/
def status (d : Ide) : BitVec 8 × Ide :=
  (if d.busy = 0 then d.noise d.polls &&& 0x3F ||| 0x40 else d.noise d.polls ||| 0x80,
    { d with busy := d.busy - 1, polls := d.polls + 1 })

/-- A count of 0 stands for 256 sectors. -/
def sectorCount (count : BitVec 8) : Nat := if count = 0 then 256 else count.toNat

/-- Read sectors, from the first drive and by the number of the sector. -/
def command (d : Ide) (cmd : BitVec 8) : Ide :=
  if cmd = 0x20 ∧ d.task.drive &&& 0x50 = 0x40 then
    { d with
      busy := d.delays d.commands
      commands := d.commands + 1
      data := (List.range (SECTSIZE * sectorCount d.count)).map fun i =>
        d.disk (SECTSIZE * d.task.sector + i) }
  else d.misuse

/-- The registers are left alone while the disk is busy, or has data to deliver. -/
def outb (d : Ide) (port : BitVec 32) (data : BitVec 8) : Ide :=
  if d.busy ≠ 0 ∨ d.data ≠ [] then d.misuse
  else if port = 0x1F2 then { d with count := data }
  else if port = 0x1F3 then { d with task := { d.task with low := data } }
  else if port = 0x1F4 then { d with task := { d.task with mid := data } }
  else if port = 0x1F5 then { d with task := { d.task with high := data } }
  else if port = 0x1F6 then { d with task := { d.task with drive := data } }
  else if port = 0x1F7 then d.command data
  else d.misuse

/-- Four bytes from the data port 0x1F0. -/
def inl (d : Ide) : BitVec 32 × Ide :=
  if d.busy ≠ 0 then (0, d.misuse)
  else match d.data with
    | b₀ :: b₁ :: b₂ :: b₃ :: rest => (b₃ ++ b₂ ++ b₁ ++ b₀, { d with data := rest })
    | _ => (0, d.misuse)

end Ide

/-! ### The driver -/

/-- wait for disk ready -/
def waitdisk (fuel : Nat) (d : Ide) : Exec Ide :=
  spin Ide.status (fun stat => stat &&& 0xC0 = 0x40) fuel d

/-- `insl(0x1F0, addr, cnt)` -/
def inslPorts : Nat → BitVec 32 → Ide × Mem → Ide × Mem
  | 0, _, s => s
  | cnt + 1, addr, (d, m) => inslPorts cnt (addr + 4) (d.inl.2, store32 m addr d.inl.1)

/-- The part of `readsect` between its waits. -/
def Ide.request (d : Ide) (offset : BitVec 32) : Ide :=
  let d := d.outb 0x1F2 1
  let d := d.outb 0x1F3 (offset.setWidth 8)
  let d := d.outb 0x1F4 ((offset >>> 8).setWidth 8)
  let d := d.outb 0x1F5 ((offset >>> 16).setWidth 8)
  let d := d.outb 0x1F6 ((offset >>> 24).setWidth 8 ||| 0xE0)
  d.outb 0x1F7 0x20

def readsectPorts (fuel : Nat) (dst offset : BitVec 32) (s : Ide × Mem) : Exec (Ide × Mem) := do
  -- wait for disk to be ready
  let d ← waitdisk fuel s.1
  -- wait for disk to be ready
  let d ← waitdisk fuel (d.request offset)
  -- read a sector
  pure (inslPorts (SECTSIZE / 4) dst (d, s.2))

/-- The variables of the loop in `readseg`, the disk and memory. -/
structure PortLoading where
  pa : BitVec 32
  offset : BitVec 32
  ide : Ide
  mem : Mem

def PortLoading.next (fuel : Nat) (l : PortLoading) : Exec PortLoading := do
  let (ide, mem) ← readsectPorts fuel l.pa l.offset (l.ide, l.mem)
  pure { pa := l.pa + BitVec.ofNat 32 SECTSIZE, offset := l.offset + 1, ide, mem }

def readsegPorts (fuel : Nat) (pa count offset : BitVec 32) (s : Ide × Mem) :
    Exec (Ide × Mem) := do
  let endPa := pa + count
  let pa := pa &&& ~~~(BitVec.ofNat 32 SECTSIZE - 1)
  let offset := offset / BitVec.ofNat 32 SECTSIZE + 1
  let l ← whileLoop (fun l : PortLoading => .ok (l.pa < endPa)) (PortLoading.next fuel)
    (count.toNat + SECTSIZE) { pa, offset, ide := s.1, mem := s.2 }
  pure (l.ide, l.mem)

/-- The variable of the loop in `bootmain`, the disk and memory. -/
structure PortBooting where
  ph : BitVec 32
  ide : Ide
  mem : Mem

def PortBooting.next (fuel : Nat) (b : PortBooting) : Exec PortBooting := do
  let ph := proghdrAt b.mem b.ph
  let (ide, mem) ← readsegPorts fuel ph.pPa ph.pMemsz ph.pOffset (b.ide, b.mem)
  pure { ph := b.ph + BitVec.ofNat 32 PROGHDR_SIZE, ide, mem }

def bootmainPorts (fuel : Nat) (s : Ide × Mem) : Exec (Ide × Boot) := do
  let (d, m) ← readsegPorts fuel ELFHDR (BitVec.ofNat 32 (SECTSIZE * 8)) 0 s
  let elf := elfAt m ELFHDR
  if elf.eMagic ≠ ELF_MAGIC then pure (d, .bad m)
  else
    let ph := ELFHDR + elf.ePhoff
    let eph := ph + BitVec.ofNat 32 (elf.ePhnum.toNat * PROGHDR_SIZE)
    let b ← whileLoop (fun b : PortBooting => .ok (b.ph < eph)) (PortBooting.next fuel)
      (elf.ePhnum.toNat + 1) { ph, ide := d, mem := m }
    pure (b.ide, .call (elfAt b.mem ELFHDR).eEntry b.mem)

/-! ### Waiting -/

theorem status_ready (n : BitVec 8) :
    (n &&& 0x3F#8 ||| 0x40#8) &&& 0xC0#8 = 0x40#8 ∧ (n ||| 0x80#8) &&& 0xC0#8 ≠ 0x40#8 := by
  constructor
  · ext i inside
    interval_cases i <;> simp
  · intro same
    have bit := congrArg (·.getLsbD 7) same
    simp at bit

theorem status_wears : Wears Ide.status (fun stat => stat &&& 0xC0 = 0x40) Ide.busy where
  status := by
    intro d
    have bits := status_ready (d.noise d.polls)
    by_cases now : d.busy = 0
    · simp [Ide.status, now, bits.1]
    · simp [Ide.status, now, bits.2]
  wears _ := rfl

theorem reads_status (k : Nat) (d : Ide) :
    reads Ide.status k d = { d with busy := d.busy - k, polls := d.polls + k } := by
  induction k generalizing d with
  | zero => rfl
  | succ k ih =>
    rw [reads, ih, Ide.status]
    congr 1 <;> dsimp only <;> omega

theorem waitdisk_eq {fuel : Nat} {d : Ide} (enough : d.busy < fuel) :
    waitdisk fuel d = .ok { d with busy := 0, polls := d.polls + (d.busy + 1) } := by
  rw [waitdisk, status_wears.spin enough, reads_status, Nat.sub_eq_zero_of_le (Nat.le_succ _)]

/-! ### A sector -/

theorem word_byte (b₀ b₁ b₂ b₃ : BitVec 8) {x : Nat} (inside : x < 4) :
    (b₃ ++ b₂ ++ b₁ ++ b₀).extractLsb' (8 * x) 8 = [b₀, b₁, b₂, b₃].getD x 0 := by
  have bits : ∀ i, i < 8 → ((b₃ ++ b₂ ++ b₁ ++ b₀).extractLsb' (8 * x) 8).getLsbD i =
      ([b₀, b₁, b₂, b₃].getD x 0).getLsbD i := by
    intro i low
    interval_cases x <;> simp [low] <;> grind
  exact BitVec.eq_of_getLsbD_eq fun i inside => bits i inside

/-- One word more, from the front of the data. -/
theorem insl_succ {bytes : List (BitVec 8)} {n : Nat} (b₀ b₁ b₂ b₃ : BitVec 8) (addr : BitVec 32)
    (small : 4 * (n + 1) ≤ 4294967296) (m : Mem) :
    insl (fun i => bytes.getD i 0) (addr + 4) n (store32 m addr (b₃ ++ b₂ ++ b₁ ++ b₀)) =
      insl (fun i => (b₀ :: b₁ :: b₂ :: b₃ :: bytes).getD i 0) addr (n + 1) m := by
  funext a
  have offset : (a - (addr + 4)).toNat =
      if (a - addr).toNat < 4 then (a - addr).toNat + 4294967296 - 4 else (a - addr).toNat - 4 := by
    split <;> bv_omega
  have bound := (a - addr).isLt
  rw [insl, insl, store32, offset]
  generalize (a - addr).toNat = x at *
  by_cases first : x < 4
  · rw [if_pos first, if_neg (by omega), if_pos first, if_pos (by omega),
      word_byte b₀ b₁ b₂ b₃ first]
    interval_cases x <;> rfl
  · obtain ⟨y, rfl⟩ : ∃ y, x = y + 4 := ⟨x - 4, by omega⟩
    rw [if_neg first, if_neg first]
    exact if_congr (by omega) rfl rfl

theorem inslPorts_eq (n : Nat) (addr : BitVec 32) (small : 4 * n ≤ 4294967296) {d : Ide}
    (free : d.busy = 0) {bytes rest : List (BitVec 8)} (data : d.data = bytes ++ rest)
    (length : bytes.length = 4 * n) (m : Mem) :
    inslPorts n addr (d, m) =
      ({ d with data := rest }, insl (fun i => bytes.getD i 0) addr n m) := by
  induction n generalizing addr d bytes m with
  | zero =>
    obtain rfl := List.length_eq_zero_iff.mp length
    have whole : { d with data := rest } = d := by
      cases d
      simp_all
    have none : insl (fun i => ([] : List (BitVec 8)).getD i 0) addr 0 m = m :=
      funext fun a => if_neg (by omega)
    rw [whole, none, inslPorts]
  | succ n ih =>
    match bytes, length with
    | b₀ :: b₁ :: b₂ :: b₃ :: bytes, length =>
      have word : d.inl = (b₃ ++ b₂ ++ b₁ ++ b₀, { d with data := bytes ++ rest }) := by
        simp [Ide.inl, free, data]
      have shorter : bytes.length = 4 * n := by
        simp only [List.length_cons] at length
        omega
      rw [inslPorts, word]
      rw [ih (addr + 4) (by omega) (d := { d with data := bytes ++ rest }) free rfl shorter,
        insl_succ b₀ b₁ b₂ b₃ addr small]

/-- The disk is left alone, with nothing to deliver, and its delays are shorter than the wait. -/
structure Idle (fuel : Nat) (disk : Disk) (d : Ide) : Prop where
  disk : d.disk = disk
  data : d.data = []
  busy : d.busy < fuel
  delays : ∀ k, d.delays k < fuel
  used : d.misused = false

section Disk

variable {fuel : Nat} {disk : Disk} {d : Ide}

/-- The command that `readsect` gives. -/
theorem request_eq {offset : BitVec 32} (small : offset.toNat < 268435456)
    (free : d.busy = 0) (drained : d.data = []) :
    d.request offset =
      { d with
        count := 1
        task := taskFile offset
        busy := d.delays d.commands
        commands := d.commands + 1
        data := (List.range SECTSIZE).map fun i =>
          d.disk (SECTSIZE * (taskFile offset).sector + i) } := by
  have drive : ((offset >>> 24).setWidth 8 ||| 0xE0#8) &&& 0x50#8 = 0x40#8 := by
    have high : offset[28] = false := Nat.testBit_lt_two_pow (i := 28) small
    ext i inside
    interval_cases i <;> simp [high]
  simp [Ide.request, Ide.outb, Ide.command, Ide.sectorCount, taskFile, free, drained, drive]

theorem readsectPorts_eq (idle : Idle fuel disk d) (dst : BitVec 32) {offset : BitVec 32}
    (small : offset.toNat < 268435456) (m : Mem) :
    ∃ d', readsectPorts fuel dst offset (d, m) = .ok (d', readsect disk dst offset m) ∧
      Idle fuel disk d' := by
  obtain ⟨rfl, drained, busy, delays, used⟩ := idle
  rw [readsectPorts, waitdisk_eq busy, Exec.ok_bind,
    request_eq (d := { d with busy := 0, polls := d.polls + (d.busy + 1) }) small rfl drained,
    waitdisk_eq (by exact delays _), Exec.ok_bind,
    inslPorts_eq (SECTSIZE / 4) dst (by decide) rfl (List.append_nil _).symm
      (by rw [List.length_map, List.length_range]; rfl)]
  refine ⟨_, congrArg Except.ok (congrArg (Prod.mk _) (funext fun a => ?_)), rfl, rfl,
    Nat.zero_lt_of_lt busy, delays, used⟩
  -- the same bytes, from a list
  refine if_ctx_congr Iff.rfl (fun inside => ?_) (fun _ => rfl)
  have within : (a - dst).toNat < SECTSIZE := inside
  generalize (a - dst).toNat = i at within
  simp [within]

/-! ### The loops -/

/-- The loop of `readseg` with the ports, next to the one without them. So far no more sectors
have been read than addresses have been passed. -/
structure SameLoading (fuel : Nat) (disk : Disk) (t : PortLoading) (l : Loading) : Prop where
  pa : t.pa = l.pa
  offset : t.offset = l.offset
  mem : t.mem = l.mem
  idle : Idle fuel disk t.ide
  aligned : l.pa.toNat % 512 = 0
  few : l.offset.toNat ≤ 8388608 + l.pa.toNat / 512

theorem SameLoading.next {t : PortLoading} {l : Loading} (same : SameLoading fuel disk t l)
    {endPa : BitVec 32} (low : endPa.toNat ≤ 4294966784) (more : l.pa < endPa) :
    ∃ t', t.next fuel = .ok t' ∧ SameLoading fuel disk t' (l.next disk) := by
  obtain ⟨pa, offset, mem, idle, aligned, few⟩ := same
  have ahead := BitVec.lt_def.mp more
  have bound := l.pa.isLt
  have passed := next_pa disk l
  have counted : (l.next disk).offset.toNat = l.offset.toNat + 1 :=
    BitVec.toNat_add_of_lt (by simp; omega)
  obtain ⟨d', read, idle'⟩ := readsectPorts_eq idle l.pa (by omega : l.offset.toNat < _) l.mem
  refine ⟨⟨l.pa + BitVec.ofNat 32 SECTSIZE, l.offset + 1, d', readsect disk l.pa l.offset l.mem⟩,
    ?_, rfl, rfl, rfl, idle', by omega, by omega⟩
  rw [PortLoading.next, pa, offset, mem, read]
  rfl

/-- The last sector is never reached, or else `readseg` does not return. -/
theorem readseg_low {pa count offset : BitVec 32} {m m' : Mem}
    (returned : readseg disk pa count offset m = .ok m') : (pa + count).toNat ≤ 4294966784 := by
  obtain ⟨n, -, read⟩ := readseg_eq_ok_iff.mp returned
  by_contra last
  exact readseg_endless disk offset m (by omega) n m' read

theorem readsegPorts_eq (idle : Idle fuel disk d) {pa count offset : BitVec 32} {m m' : Mem}
    (returned : readseg disk pa count offset m = .ok m') :
    ∃ d', readsegPorts fuel pa count offset (d, m) = .ok (d', m') ∧ Idle fuel disk d' := by
  have low := readseg_low returned
  obtain ⟨l, looped, mem⟩ := Exec.bind_eq_ok.mp returned
  have start := sectorStart_toNat pa
  have first := firstSector_toNat offset
  have bound := offset.isLt
  obtain ⟨t, looped', same⟩ := whileLoop_refines (SameLoading fuel disk)
    (fun t : PortLoading => .ok (t.pa < pa + count)) (PortLoading.next fuel)
    (by
      intro t l b same tested
      rw [same.pa]
      exact tested)
    (by
      intro t l l' same tested next
      obtain rfl := Except.ok.inj next
      exact same.next low (by simpa using tested))
    (t := ⟨pa &&& ~~~(BitVec.ofNat 32 SECTSIZE - 1), offset / BitVec.ofNat 32 SECTSIZE + 1, d, m⟩)
    ⟨rfl, rfl, rfl, idle, by dsimp only; omega, by dsimp only; omega⟩ looped
  obtain rfl : l.mem = m' := by simpa using mem
  refine ⟨t.ide, ?_, same.idle⟩
  rw [readsegPorts]
  dsimp only
  rw [looped', Exec.ok_bind, same.mem]
  rfl

/-- The loop of `bootmain` with the ports, next to the one without them. -/
structure SameBooting (fuel : Nat) (disk : Disk) (t : PortBooting) (b : Booting) : Prop where
  ph : t.ph = b.ph
  mem : t.mem = b.mem
  idle : Idle fuel disk t.ide

theorem SameBooting.next {t : PortBooting} {b b' : Booting} (same : SameBooting fuel disk t b)
    (next : b.next disk = .ok b') : ∃ t', t.next fuel = .ok t' ∧ SameBooting fuel disk t' b' := by
  obtain ⟨ph, mem, idle⟩ := same
  obtain ⟨m', read, rest⟩ := Exec.bind_eq_ok.mp next
  obtain rfl := Except.ok.inj rest
  obtain ⟨d', read', idle'⟩ := readsegPorts_eq idle read
  refine ⟨⟨b.ph + BitVec.ofNat 32 PROGHDR_SIZE, d', m'⟩, ?_, rfl, rfl, idle'⟩
  rw [PortBooting.next, ph, mem]
  dsimp only
  rw [read']
  rfl

theorem bootmainPorts_eq (idle : Idle fuel disk d) {m : Mem} {boot : Boot}
    (booted : bootmain disk m = .ok boot) :
    ∃ d', bootmainPorts fuel (d, m) = .ok (d', boot) ∧ Idle fuel disk d' := by
  obtain ⟨m₁, read, rest⟩ := Exec.bind_eq_ok.mp booted
  obtain ⟨d₁, read', idle₁⟩ := readsegPorts_eq idle read
  rw [bootmainPorts, read', Exec.ok_bind]
  dsimp only at rest ⊢
  by_cases bad : (elfAt m₁ ELFHDR).eMagic ≠ ELF_MAGIC
  · rw [if_pos bad] at rest ⊢
    obtain rfl := Except.ok.inj rest
    exact ⟨d₁, rfl, idle₁⟩
  · rw [if_neg bad] at rest ⊢
    obtain ⟨b, looped, called⟩ := Exec.bind_eq_ok.mp rest
    obtain rfl := Except.ok.inj called
    obtain ⟨t, looped', same⟩ := whileLoop_refines (SameBooting fuel disk)
      (fun t : PortBooting =>
        .ok (t.ph < ELFHDR + (elfAt m₁ ELFHDR).ePhoff +
          BitVec.ofNat 32 ((elfAt m₁ ELFHDR).ePhnum.toNat * PROGHDR_SIZE)))
      (PortBooting.next fuel)
      (by
        intro t b go same tested
        rw [same.ph]
        exact tested)
      (fun t b b' same _ next => same.next next)
      (t := ⟨ELFHDR + (elfAt m₁ ELFHDR).ePhoff, d₁, m₁⟩) ⟨rfl, rfl, idle₁⟩ looped
    refine ⟨t.ide, ?_, same.idle⟩
    rw [looped', Exec.ok_bind, same.mem]
    rfl

/-- Wherever the boot loader comes to an end with a disk that is always ready, it comes to the
same end through the ports, however long the disk takes; and it leaves the disk alone while that
is busy, takes all the data that it has asked for, and never selects the second drive. -/
theorem bootmain_ports (idle : Idle fuel disk d) {m : Mem} {boot : Boot}
    (booted : bootmain disk m = .ok boot) :
    ∃ d', bootmainPorts fuel (d, m) = .ok (d', boot) ∧ Idle fuel disk d' :=
  bootmainPorts_eq idle booted

end Disk

/-! ### A slow disk -/

/-- It takes up to seven reads of its status for a command. -/
def slowDisk (disk : Disk) : Ide where
  disk := disk
  count := 0
  task := ⟨0, 0, 0, 0⟩
  busy := 3
  delays k := k % 8
  commands := 0
  noise k := BitVec.ofNat 8 (37 * k)
  polls := 0
  data := []
  misused := false

theorem slowDisk_idle (disk : Disk) : Idle 8 disk (slowDisk disk) where
  disk := rfl
  data := rfl
  busy := show 3 < 8 by decide
  delays _ := Nat.mod_lt _ (by decide)
  used := rfl

theorem bootmain_ports_slow :
    ∃ boot d', bootmainPorts 8 (slowDisk adjoiningSegments, fun _ => 0) = .ok (d', boot) ∧
      Idle 8 adjoiningSegments d' := by
  obtain ⟨m₁, booted⟩ := bootmain_loads adjoiningSegments_wellFormed fun _ => 0
  exact ⟨_, bootmain_ports (slowDisk_idle adjoiningSegments) booted⟩

end Jos
