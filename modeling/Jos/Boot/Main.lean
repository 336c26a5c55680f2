import Jos.Library.Exec
import Jos.Library.Memory

/-!
# boot/main.c

The boot loader with the disk as a parameter. The waits for the disk are left out: they end
when it is ready. A loop over sectors that never ends runs out of fuel.
-/
namespace Jos

open Library

def SECTSIZE : Nat := 512
def ELFHDR : BitVec 32 := 0x10000
def ELF_MAGIC : BitVec 32 := 0x464C457F

/-- The bytes of the disk. -/
abbrev Disk := Nat → BitVec 8

/-! ### inc/elf.h -/

structure Elf where
  eMagic : BitVec 32
  eEntry : BitVec 32
  ePhoff : BitVec 32
  ePhnum : BitVec 16
  deriving DecidableEq

def elfAt (m : Mem) (a : BitVec 32) : Elf where
  eMagic := load32 m a
  eEntry := load32 m (a + 24)
  ePhoff := load32 m (a + 28)
  ePhnum := load16 m (a + 44)

structure Proghdr where
  pOffset : BitVec 32
  pPa : BitVec 32
  pFilesz : BitVec 32
  pMemsz : BitVec 32
  deriving DecidableEq

/-- `sizeof(struct Proghdr)` -/
def PROGHDR_SIZE : Nat := 32

def proghdrAt (m : Mem) (a : BitVec 32) : Proghdr where
  pOffset := load32 m (a + 4)
  pPa := load32 m (a + 12)
  pFilesz := load32 m (a + 16)
  pMemsz := load32 m (a + 20)

/-! ### Sectors -/

/-- The registers from 0x1F3 to 0x1F6 of the disk controller. -/
structure TaskFile where
  low : BitVec 8
  mid : BitVec 8
  high : BitVec 8
  drive : BitVec 8

/-- The number of the sector that a command addresses; its highest 4 bits share a register with
the number of the drive. -/
def TaskFile.sector (t : TaskFile) : Nat :=
  t.low.toNat + 256 * t.mid.toNat + 65536 * t.high.toNat + 16777216 * (t.drive.toNat % 16)

/-- The registers as `readsect` sets them. -/
def taskFile (offset : BitVec 32) : TaskFile where
  low := offset.setWidth 8
  mid := (offset >>> 8).setWidth 8
  high := (offset >>> 16).setWidth 8
  drive := (offset >>> 24).setWidth 8 ||| 0xE0

/-- `cnt` words of what the disk delivers, from `addr` on. -/
def insl (data : Nat → BitVec 8) (addr : BitVec 32) (cnt : Nat) (m : Mem) : Mem := fun a =>
  if (a - addr).toNat < 4 * cnt then data (a - addr).toNat else m a

def readsect (disk : Disk) (dst offset : BitVec 32) (m : Mem) : Mem :=
  -- cmd 0x20 - read sectors
  insl (fun i => disk (SECTSIZE * (taskFile offset).sector + i)) dst (SECTSIZE / 4) m

/-- The variables of the loop in `readseg`, and memory. -/
structure Loading where
  pa : BitVec 32
  offset : BitVec 32
  mem : Mem

/-- One turn of the loop in `readseg`. -/
def Loading.next (disk : Disk) (l : Loading) : Loading where
  pa := l.pa + BitVec.ofNat 32 SECTSIZE
  offset := l.offset + 1
  mem := readsect disk l.pa l.offset l.mem

/-- Read `count` bytes at `offset` from kernel into physical address `pa`. -/
def readseg (disk : Disk) (pa count offset : BitVec 32) (m : Mem) : Exec Mem := do
  let endPa := pa + count
  -- round down to sector boundary
  let pa := pa &&& ~~~(BitVec.ofNat 32 SECTSIZE - 1)
  -- translate from bytes to sectors, and kernel starts at sector 1
  let offset := offset / BitVec.ofNat 32 SECTSIZE + 1
  let l ← whileLoop (fun l : Loading => .ok (l.pa < endPa)) (fun l => .ok (l.next disk))
    (count.toNat + SECTSIZE) { pa, offset, mem := m }
  pure l.mem

/-! ### bootmain -/

/-- How the boot loader ends: it calls the entry point, or it spins. -/
inductive Boot where
  | call (entry : BitVec 32) (mem : Mem)
  | bad (mem : Mem)

/-- The variable of the loop in `bootmain`, and memory. -/
structure Booting where
  ph : BitVec 32
  mem : Mem

/-- One turn of the loop in `bootmain`. -/
def Booting.next (disk : Disk) (b : Booting) : Exec Booting := do
  let ph := proghdrAt b.mem b.ph
  let mem ← readseg disk ph.pPa ph.pMemsz ph.pOffset b.mem
  pure { ph := b.ph + BitVec.ofNat 32 PROGHDR_SIZE, mem }

def bootmain (disk : Disk) (m : Mem) : Exec Boot := do
  -- read 1st page off disk
  let m ← readseg disk ELFHDR (BitVec.ofNat 32 (SECTSIZE * 8)) 0 m
  let elf := elfAt m ELFHDR
  -- is this a valid ELF?
  if elf.eMagic ≠ ELF_MAGIC then pure (.bad m)
  else
    -- load each program segment (ignores ph flags)
    let ph := ELFHDR + elf.ePhoff
    let eph := ph + BitVec.ofNat 32 (elf.ePhnum.toNat * PROGHDR_SIZE)
    let b ← whileLoop (fun b : Booting => .ok (b.ph < eph)) (Booting.next disk)
      (elf.ePhnum.toNat + 1) { ph, mem := m }
    -- call the entry point from the ELF header
    pure (.call (elfAt b.mem ELFHDR).eEntry b.mem)

end Jos
