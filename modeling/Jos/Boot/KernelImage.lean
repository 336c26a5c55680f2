import Jos.Boot.LoadSegments

/-!
# The segments of the kernel

`bootmain` loads the segments of the image one after the other. The bytes of a segment are
intact in the end unless a later segment starts inside one of their sectors and brings other
bytes along.
-/
namespace Jos

open Library

/-! ### The image -/

/-- The kernel starts at sector 1. -/
def image (disk : Disk) (j : Nat) : BitVec 8 := disk (SECTSIZE + j)

/-- The image from address 0 on. -/
def imageMem (disk : Disk) : Mem := fun a => image disk a.toNat

def elfOf (disk : Disk) : Elf := elfAt (imageMem disk) 0

/-- The program headers of the image. -/
def proghdrs (disk : Disk) : List Proghdr :=
  (List.range (elfOf disk).ePhnum.toNat).map fun k =>
    proghdrAt (imageMem disk) (BitVec.ofNat 32 ((elfOf disk).ePhoff.toNat + PROGHDR_SIZE * k))

/-- An image as a linker makes it. -/
structure WellFormedImage (disk : Disk) : Prop where
  magic : (elfOf disk).eMagic = ELF_MAGIC
  headers : (elfOf disk).ePhoff.toNat + PROGHDR_SIZE * (elfOf disk).ePhnum.toNat ≤ 4096
  ordered : (proghdrs disk).Pairwise fun s t => s.pPa.toNat ≤ t.pPa.toNat ∧
    (s.pPa.toNat + s.pMemsz.toNat ≤ t.pPa.toNat ∨ t.pMemsz.toNat = 0)
  within : ∀ s ∈ proghdrs disk, 0x100000 ≤ s.pPa.toNat ∧
    s.pPa.toNat + s.pMemsz.toNat ≤ 0xFFFFFE00
  sizes : ∀ s ∈ proghdrs disk, s.pFilesz.toNat ≤ s.pMemsz.toNat
  congruent : ∀ s ∈ proghdrs disk, s.pPa.toNat % SECTSIZE = s.pOffset.toNat % SECTSIZE

/-! ### The headers in memory -/

/-- The first page of the image is at `ELFHDR`. -/
def HeaderLoaded (disk : Disk) (m : Mem) : Prop :=
  ∀ x < 4096, m (ELFHDR + BitVec.ofNat 32 x) = image disk x

section Header

variable {disk : Disk} {m : Mem}

theorem HeaderLoaded.byte (header : HeaderLoaded disk m) (x k : Nat) (inside : x + k < 4096) :
    m (ELFHDR + BitVec.ofNat 32 x + BitVec.ofNat 32 k) =
      imageMem disk (BitVec.ofNat 32 x + BitVec.ofNat 32 k) := by
  have place : (BitVec.ofNat 32 (x + k)).toNat = x + k := by
    rw [BitVec.toNat_ofNat]
    omega
  rw [BitVec.add_assoc, ← BitVec.ofNat_add, header _ inside, imageMem, place]

theorem HeaderLoaded.load16_eq (header : HeaderLoaded disk m) (x : Nat) (inside : x + 2 ≤ 4096) :
    load16 m (ELFHDR + BitVec.ofNat 32 x) = load16 (imageMem disk) (BitVec.ofNat 32 x) := by
  have first := header.byte x 0 (by omega)
  have second := header.byte x 1 (by omega)
  rw [BitVec.add_zero, BitVec.add_zero] at first
  exact congrArg₂ (· ++ ·) second first

theorem HeaderLoaded.load32_eq (header : HeaderLoaded disk m) (x : Nat) (inside : x + 4 ≤ 4096) :
    load32 m (ELFHDR + BitVec.ofNat 32 x) = load32 (imageMem disk) (BitVec.ofNat 32 x) := by
  have first := header.byte x 0 (by omega)
  have second := header.byte x 1 (by omega)
  have third := header.byte x 2 (by omega)
  have fourth := header.byte x 3 (by omega)
  rw [BitVec.add_zero, BitVec.add_zero] at first
  exact congrArg₂ (· ++ ·) (congrArg₂ (· ++ ·) (congrArg₂ (· ++ ·) fourth third) second) first

theorem HeaderLoaded.elfAt_eq (header : HeaderLoaded disk m) : elfAt m ELFHDR = elfOf disk := by
  have magic := header.load32_eq 0 (by decide)
  have entry := header.load32_eq 24 (by decide)
  have phoff := header.load32_eq 28 (by decide)
  have phnum := header.load16_eq 44 (by decide)
  rw [BitVec.add_zero] at magic
  unfold elfOf elfAt
  congr 1

theorem HeaderLoaded.proghdrAt_eq (header : HeaderLoaded disk m) (x : Nat)
    (inside : x + PROGHDR_SIZE ≤ 4096) :
    proghdrAt m (ELFHDR + BitVec.ofNat 32 x) = proghdrAt (imageMem disk) (BitVec.ofNat 32 x) := by
  have size : PROGHDR_SIZE = 32 := rfl
  have field : ∀ k, k + 4 ≤ 32 → load32 m (ELFHDR + BitVec.ofNat 32 x + BitVec.ofNat 32 k) =
      load32 (imageMem disk) (BitVec.ofNat 32 x + BitVec.ofNat 32 k) := by
    intro k within
    have word := header.load32_eq (x + k) (by omega)
    rwa [BitVec.ofNat_add, ← BitVec.add_assoc] at word
  unfold proghdrAt
  congr 1
  · exact field 4 (by decide)
  · exact field 12 (by decide)
  · exact field 16 (by decide)
  · exact field 20 (by decide)

/-- Memory with the first page of the image in it -/
def headerMem (disk : Disk) (m : Mem) : Mem := fun a =>
  if covers ELFHDR (BitVec.ofNat 32 (SECTSIZE * 8)) a then diskByte disk ELFHDR 0 a else m a

theorem headerMem_loaded (disk : Disk) (m : Mem) : HeaderLoaded disk (headerMem disk m) := by
  intro x inside
  have place : (ELFHDR + BitVec.ofNat 32 x).toNat = 65536 + x := by
    rw [ELFHDR]
    bv_omega
  have base : ELFHDR.toNat = 65536 := rfl
  have count : (BitVec.ofNat 32 (SECTSIZE * 8)).toNat = 4096 := rfl
  have covered : covers ELFHDR (BitVec.ofNat 32 (SECTSIZE * 8)) (ELFHDR + BitVec.ofNat 32 x) := by
    rw [covers, decide_eq_true_iff, place, base, count]
    omega
  rw [headerMem, if_pos covered, diskByte, image, place, base]
  refine congrArg disk ?_
  have sector : SECTSIZE = 512 := rfl
  have start : (0 : BitVec 32).toNat = 0 := rfl
  omega

end Header

/-! ### The segments in memory -/

def Proghdr.covers (s : Proghdr) (a : BitVec 32) : Bool := Jos.covers s.pPa s.pMemsz a

def Proghdr.byte (disk : Disk) (s : Proghdr) (a : BitVec 32) : BitVec 8 :=
  diskByte disk s.pPa s.pOffset a

/-- Memory after the segments have been loaded in order. -/
def loaded (disk : Disk) (m : Mem) (ss : List Proghdr) : Mem :=
  overlay Proghdr.covers (Proghdr.byte disk) m ss

section Segments

variable {disk : Disk} {m : Mem}

theorem HeaderLoaded.loaded (header : HeaderLoaded disk m) {ss : List Proghdr}
    (above : ∀ s ∈ ss, 0x100000 ≤ s.pPa.toNat) : HeaderLoaded disk (loaded disk m ss) := by
  intro x inside
  have place : (ELFHDR + BitVec.ofNat 32 x).toNat = 65536 + x := by
    rw [ELFHDR]
    bv_omega
  rw [Jos.loaded, overlay_outside]
  · exact header x inside
  · intro s member
    have high := above s member
    rw [Proghdr.covers, Jos.covers, decide_eq_false_iff_not, place]
    omega

theorem loaded_concat (ss : List Proghdr) (s : Proghdr) :
    Jos.loaded disk m (ss ++ [s]) =
      write Proghdr.covers (Proghdr.byte disk) (Jos.loaded disk m ss) s := by
  rw [Jos.loaded, overlay_append]
  rfl

/-- `bootmain` has loaded `k` segments. -/
structure Booted (disk : Disk) (m : Mem) (b : Booting) (k : Nat) : Prop where
  ph : b.ph = ELFHDR + BitVec.ofNat 32 ((elfOf disk).ePhoff.toNat + PROGHDR_SIZE * k)
  le : k ≤ (elfOf disk).ePhnum.toNat
  mem : b.mem = Jos.loaded disk m ((proghdrs disk).take k)

theorem Booted.next {b : Booting} {k : Nat} (wellFormed : WellFormedImage disk)
    (header : HeaderLoaded disk m) (booted : Booted disk m b k)
    (more : k < (elfOf disk).ePhnum.toNat) :
    ∃ b', b.next disk = .ok b' ∧ Booted disk m b' (k + 1) := by
  obtain ⟨ph, le, mem⟩ := booted
  have inside : k < (proghdrs disk).length := by simpa [proghdrs] using more
  have member : (proghdrs disk)[k] ∈ proghdrs disk := List.getElem_mem inside
  -- the segments so far have left the headers alone
  have header' : HeaderLoaded disk b.mem := by
    rw [mem]
    exact header.loaded fun s taken => (wellFormed.within s (List.mem_of_mem_take taken)).1
  have size : PROGHDR_SIZE = 32 := rfl
  have headers := wellFormed.headers
  have found : proghdrAt b.mem b.ph = (proghdrs disk)[k] := by
    rw [ph, header'.proghdrAt_eq _ (by rw [size] at *; omega)]
    simp [proghdrs]
  refine ⟨⟨b.ph + BitVec.ofNat 32 PROGHDR_SIZE,
    write Proghdr.covers (Proghdr.byte disk) b.mem (proghdrs disk)[k]⟩, ?_, ?_, more, ?_⟩
  · rw [Booting.next, found]
    rw [readseg_eq disk _ (wellFormed.within _ member).2]
    rfl
  · dsimp only
    rw [ph, BitVec.add_assoc, ← BitVec.ofNat_add, Nat.mul_succ, Nat.add_assoc]
  · rw [List.take_succ_eq_append_getElem inside, loaded_concat, ← mem]

theorem Booted.ph_toNat {b : Booting} {k : Nat} (wellFormed : WellFormedImage disk)
    (booted : Booted disk m b k) :
    b.ph.toNat = 65536 + (elfOf disk).ePhoff.toNat + 32 * k := by
  have headers := wellFormed.headers
  have size : PROGHDR_SIZE = 32 := rfl
  have base : ELFHDR.toNat = 65536 := rfl
  have le := booted.le
  rw [size] at headers
  rw [booted.ph, size, BitVec.toNat_add, base, BitVec.toNat_ofNat]
  omega

/-- `bootmain` calls the entry point with all segments loaded in order. -/
theorem bootmain_eq (wellFormed : WellFormedImage disk) (m : Mem) :
    bootmain disk m =
      .ok (.call (elfOf disk).eEntry (loaded disk (headerMem disk m) (proghdrs disk))) := by
  have read : readseg disk ELFHDR (BitVec.ofNat 32 (SECTSIZE * 8)) 0 m = .ok (headerMem disk m) :=
    readseg_eq disk 0 (by decide) m
  have header := headerMem_loaded disk m
  generalize headerMem disk m = m₁ at *
  have headers := wellFormed.headers
  have size : PROGHDR_SIZE = 32 := rfl
  rw [size] at headers
  -- the headers end before addresses wrap around
  have endPh : (ELFHDR + (elfOf disk).ePhoff +
      BitVec.ofNat 32 ((elfOf disk).ePhnum.toNat * PROGHDR_SIZE)).toNat =
      65536 + (elfOf disk).ePhoff.toNat + 32 * (elfOf disk).ePhnum.toNat := by
    have base : ELFHDR.toNat = 65536 := rfl
    rw [size, BitVec.toNat_add, BitVec.toNat_add, base, BitVec.toNat_ofNat]
    omega
  have initial : Booted disk m₁ ⟨ELFHDR + (elfOf disk).ePhoff, m₁⟩ 0 :=
    ⟨by simp, Nat.zero_le _, rfl⟩
  generalize ephIs : ELFHDR + (elfOf disk).ePhoff +
    BitVec.ofNat 32 ((elfOf disk).ePhnum.toNat * PROGHDR_SIZE) = eph at endPh
  obtain ⟨b, run, ⟨k, booted⟩, done⟩ := whileLoop_total
    (fun b : Booting => .ok (b.ph < eph)) (Booting.next disk)
    (fun b => ∃ k, Booted disk m₁ b k) (fun b => (eph.toNat - b.ph.toNat) / 32)
    (by
      rintro b ⟨k, booted⟩
      have here := booted.ph_toNat wellFormed
      by_cases more : b.ph < eph
      · right
        have before := BitVec.lt_def.mp more
        obtain ⟨b', turn, booted'⟩ := booted.next wellFormed header (by omega)
        have there := booted'.ph_toNat wellFormed
        exact ⟨by simp [more], b', turn, ⟨k + 1, booted'⟩, by omega⟩
      · left
        simp [more])
    ((elfOf disk).ePhnum.toNat + 1) _ ⟨0, initial⟩ (by
      have := initial.ph_toNat wellFormed
      omega)
  have stopped : ¬b.ph.toNat < eph.toNat := by
    simpa [BitVec.lt_def] using done
  -- the loop has stopped at the end of the headers
  have all : k = (proghdrs disk).length := by
    have := booted.ph_toNat wellFormed
    have := booted.le
    simp [proghdrs]
    omega
  have mem : b.mem = loaded disk m₁ (proghdrs disk) := by
    rw [booted.mem, all, List.take_length]
  -- so the entry point is read from the same header
  have header' : HeaderLoaded disk b.mem := by
    rw [mem]
    exact header.loaded fun s member => (wellFormed.within s member).1
  rw [bootmain, read, Exec.ok_bind]
  dsimp only
  rw [header.elfAt_eq, if_neg (not_not_intro wellFormed.magic), ephIs, run, Exec.ok_bind,
    header'.elfAt_eq, mem]
  rfl

theorem bootmain_loads (wellFormed : WellFormedImage disk) (m : Mem) :
    ∃ m₁, bootmain disk m = .ok (.call (elfOf disk).eEntry (loaded disk m₁ (proghdrs disk))) :=
  ⟨_, bootmain_eq wellFormed m⟩

/-! ### What is left alone -/

/-- Addresses outside the page of the header and the sectors of the segments. -/
def Spared (disk : Disk) (a : BitVec 32) : Prop :=
  covers ELFHDR (BitVec.ofNat 32 (SECTSIZE * 8)) a = false ∧
    ∀ s ∈ proghdrs disk, s.covers a = false

theorem loaded_spared {a : BitVec 32} (spared : Spared disk a) (m : Mem) :
    loaded disk (headerMem disk m) (proghdrs disk) a = m a := by
  rw [loaded, overlay_outside _ spared.2, headerMem, if_neg (by rw [spared.1]; decide)]

/-- The boot loader's own code, data and stack are spared, and the screen. -/
theorem spared_low (wellFormed : WellFormedImage disk) {a : BitVec 32}
    (low : a.toNat < 0x10000 ∨ 0x11000 ≤ a.toNat ∧ a.toNat < 0x100000) : Spared disk a := by
  constructor
  · have base : ELFHDR.toNat = 65536 := rfl
    have count : (BitVec.ofNat 32 (SECTSIZE * 8)).toNat = 4096 := rfl
    rw [covers, decide_eq_false_iff_not, base, count]
    omega
  · intro s member
    have high := (wellFormed.within s member).1
    rw [Proghdr.covers, covers, decide_eq_false_iff_not]
    omega

end Segments

end Jos
