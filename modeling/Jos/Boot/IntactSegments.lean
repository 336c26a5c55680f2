import Jos.Boot.KernelImage
import Mathlib.Data.List.Find

/-!
# When the segments are intact

Loading in increasing order repairs what an earlier segment has written into a later one. It
does not repair what a later segment, from the start of its first sector on, writes over the
end of an earlier one.
-/
namespace Jos

open Library

/-- Whatever was in memory, the entry point is called with the file bytes of every segment in
their place. -/
def LoadsIntact (disk : Disk) : Prop :=
  ∀ m, ∃ m', bootmain disk m = .ok (.call (elfOf disk).eEntry m') ∧
    ∀ s ∈ proghdrs disk, ∀ i < s.pFilesz.toNat,
      m' (s.pPa + BitVec.ofNat 32 i) = image disk (s.pOffset.toNat + i)

/-- The segment begins in the sector of `a`, but not at its first byte. -/
def startsInside (a : Nat) (t : Proghdr) : Bool :=
  t.pPa.toNat / SECTSIZE = a / SECTSIZE ∧ t.pPa.toNat % SECTSIZE ≠ 0

/-- Of the later segments that start inside the sector of a file byte, the last one has the same
byte before it in the image. -/
def Harmless (disk : Disk) : Prop :=
  ∀ earlier s later, proghdrs disk = earlier ++ s :: later → ∀ i < s.pFilesz.toNat,
    ∀ t, later.reverse.find? (startsInside (s.pPa.toNat + i)) = some t →
      image disk (t.pOffset.toNat + (s.pPa.toNat + i) - t.pPa.toNat) =
        image disk (s.pOffset.toNat + i)

section Bytes

variable {disk : Disk}

/-- A sector is read to its place relative to the segment. -/
theorem byte_eq {t : Proghdr} {a : BitVec 32}
    (congruent : t.pPa.toNat % SECTSIZE = t.pOffset.toNat % SECTSIZE)
    (covered : t.covers a = true) :
    t.byte disk a = image disk (t.pOffset.toNat + a.toNat - t.pPa.toNat) := by
  rw [Proghdr.covers, covers, decide_eq_true_iff] at covered
  have size : SECTSIZE = 512 := rfl
  rw [size] at congruent
  rw [Proghdr.byte, diskByte, image]
  refine congrArg disk ?_
  omega

theorem fileByte_toNat {s : Proghdr} (within : s.pPa.toNat + s.pMemsz.toNat ≤ 0xFFFFFE00)
    (sizes : s.pFilesz.toNat ≤ s.pMemsz.toNat) {i : Nat} (inside : i < s.pFilesz.toNat) :
    (s.pPa + BitVec.ofNat 32 i).toNat = s.pPa.toNat + i := by
  rw [BitVec.toNat_add, BitVec.toNat_ofNat]
  omega

/-- A later segment is loaded over a byte of an earlier one just when it starts inside the
sector. -/
theorem covers_eq_startsInside {s t : Proghdr} {a : BitVec 32}
    (ordered : s.pPa.toNat ≤ t.pPa.toNat ∧
      (s.pPa.toNat + s.pMemsz.toNat ≤ t.pPa.toNat ∨ t.pMemsz.toNat = 0))
    (high : a.toNat < s.pPa.toNat + s.pMemsz.toNat) :
    t.covers a = startsInside a.toNat t := by
  have size : SECTSIZE = 512 := rfl
  rw [Proghdr.covers, covers, startsInside, size]
  exact decide_eq_decide.mpr (by omega)

theorem loaded_fileByte (wellFormed : WellFormedImage disk) (m : Mem) {earlier later : List Proghdr}
    {s : Proghdr} (split : proghdrs disk = earlier ++ s :: later) {i : Nat}
    (inside : i < s.pFilesz.toNat) :
    loaded disk m (proghdrs disk) (s.pPa + BitVec.ofNat 32 i) =
      ((later.reverse.find? (startsInside (s.pPa.toNat + i))).map fun t =>
        image disk (t.pOffset.toNat + (s.pPa.toNat + i) - t.pPa.toNat)).getD
        (image disk (s.pOffset.toNat + i)) := by
  have member : s ∈ proghdrs disk := by rw [split]; simp
  have later_member : ∀ t ∈ later, t ∈ proghdrs disk := by
    intro t after
    rw [split]
    simp [after]
  have within := wellFormed.within s member
  have sizes := wellFormed.sizes s member
  have place := fileByte_toNat within.2 sizes inside
  have covered : s.covers (s.pPa + BitVec.ofNat 32 i) = true := by
    rw [Proghdr.covers, covers, decide_eq_true_iff, place]
    omega
  -- the segment itself brings the right byte
  have own : s.byte disk (s.pPa + BitVec.ofNat 32 i) = image disk (s.pOffset.toNat + i) := by
    rw [byte_eq (wellFormed.congruent s member) covered, place]
    congr 1
    omega
  -- what comes later lies above
  have ordered : ∀ t ∈ later, s.pPa.toNat ≤ t.pPa.toNat ∧
      (s.pPa.toNat + s.pMemsz.toNat ≤ t.pPa.toNat ∨ t.pMemsz.toNat = 0) := by
    have pairs := wellFormed.ordered
    rw [split, List.pairwise_append, List.pairwise_cons] at pairs
    exact pairs.2.1.1
  have same : later.reverse.find? (Proghdr.covers · (s.pPa + BitVec.ofNat 32 i)) =
      later.reverse.find? (startsInside (s.pPa.toNat + i)) := by
    apply List.find?_congr
    intro t after
    rw [← place]
    exact covers_eq_startsInside (ordered t (List.mem_reverse.mp after)) (by omega)
  -- so the last of the later segments that reach the byte decides
  rw [loaded, split, overlay_after m earlier later covered, own, ← same]
  cases found : later.reverse.find? (Proghdr.covers · (s.pPa + BitVec.ofNat 32 i)) with
  | none => rfl
  | some t =>
    have after := List.mem_reverse.mp (List.mem_of_find?_eq_some found)
    have reaches := @List.find?_some _ (Proghdr.covers · (s.pPa + BitVec.ofNat 32 i)) _ _ found
    rw [Option.map_some, Option.map_some, Option.getD_some, Option.getD_some,
      byte_eq (wellFormed.congruent t (later_member t after)) reaches, place]

end Bytes

theorem LoadsIntact.harmless {disk : Disk} (intact : LoadsIntact disk)
    (wellFormed : WellFormedImage disk) : Harmless disk := by
  intro earlier s later split i inside t found
  obtain ⟨m', booted, bytes⟩ := intact fun _ => 0
  -- one memory to boot from is enough
  obtain ⟨m₁, loads⟩ := bootmain_loads wellFormed fun _ => 0
  rw [loads] at booted
  obtain ⟨-, rfl⟩ := Boot.call.inj (Except.ok.inj booted)
  have byte := bytes s (by rw [split]; simp) i inside
  rwa [loaded_fileByte wellFormed m₁ split inside, found] at byte

theorem Harmless.loadsIntact {disk : Disk} (harmless : Harmless disk)
    (wellFormed : WellFormedImage disk) : LoadsIntact disk := by
  intro m
  obtain ⟨m₁, loads⟩ := bootmain_loads wellFormed m
  refine ⟨_, loads, ?_⟩
  intro s member i inside
  obtain ⟨earlier, later, split⟩ := List.append_of_mem member
  rw [loaded_fileByte wellFormed m₁ split inside]
  cases found : later.reverse.find? (startsInside (s.pPa.toNat + i)) with
  | none => rfl
  | some t => exact harmless earlier s later split i inside t found

/-- Segments that begin with a sector harm no other. -/
theorem harmless_of_aligned {disk : Disk}
    (aligned : ∀ t ∈ proghdrs disk, t.pPa.toNat % SECTSIZE = 0) : Harmless disk := by
  intro earlier s later split i _ t found
  have after := List.mem_reverse.mp (List.mem_of_find?_eq_some found)
  have starts := @List.find?_some _ (startsInside (s.pPa.toNat + i)) _ _ found
  have member : t ∈ proghdrs disk := by
    rw [split]
    simp [after]
  rw [startsInside, decide_eq_true_iff] at starts
  exact absurd (aligned t member) starts.2

/-- So do segments that lie in memory as they lie in the image. -/
theorem harmless_of_displacement {disk : Disk}
    (same : ∀ s ∈ proghdrs disk, ∀ t ∈ proghdrs disk,
      s.pPa.toNat + t.pOffset.toNat = t.pPa.toNat + s.pOffset.toNat) : Harmless disk := by
  intro earlier s later split i _ t found
  have after := List.mem_reverse.mp (List.mem_of_find?_eq_some found)
  have displaced := same s (by rw [split]; simp) t (by rw [split]; simp [after])
  congr 1
  omega

/-- The segments are intact just when what is loaded after them is harmless. -/
theorem loadsIntact_iff {disk : Disk} (wellFormed : WellFormedImage disk) :
    LoadsIntact disk ↔ Harmless disk :=
  ⟨fun intact => intact.harmless wellFormed, fun harmless => harmless.loadsIntact wellFormed⟩

/-! ### Two kernels -/

/-- A disk with the given words at the start of the image, and a 1 at 0x1000. -/
def kernelDisk (words : List (BitVec 32)) : Disk := fun n =>
  let j := n - SECTSIZE
  if j = 0x1000 then 1 else ((words.getD (j / 4) 0) >>> (8 * (j % 4))).setWidth 8

/-- The words of an ELF header for `phnum` program headers that follow it. -/
def elfWords (phnum : BitVec 32) : List (BitVec 32) :=
  [ELF_MAGIC, 0, 0, 0, 0, 0, 0x10000C, 52, 0, 0, 0, phnum, 0]

/-- The words of a program header for 0x100 bytes. -/
def proghdrWords (offset pa : BitVec 32) : List (BitVec 32) :=
  [1, offset, 0, pa, 0x100, 0x100, 0, 0]

/-- Two segments that lie in one sector of memory as they lie in one of the image. -/
def adjoiningSegments : Disk :=
  kernelDisk (elfWords 2 ++ proghdrWords 0x1000 0x100000 ++ proghdrWords 0x1100 0x100100)

/-- Two segments in one sector of memory, and in two of the image. -/
def sharedSector : Disk :=
  kernelDisk (elfWords 2 ++ proghdrWords 0x1000 0x100000 ++ proghdrWords 0x2100 0x100100)

theorem adjoiningSegments_headers : proghdrs adjoiningSegments =
    [⟨0x1000, 0x100000, 0x100, 0x100⟩, ⟨0x1100, 0x100100, 0x100, 0x100⟩] := by
  decide +kernel

theorem adjoiningSegments_wellFormed : WellFormedImage adjoiningSegments := by
  refine ⟨by decide +kernel, by decide +kernel, ?_, ?_, ?_, ?_⟩ <;>
    (rw [adjoiningSegments_headers]; decide)

theorem loadsIntact_iff_adjoining : LoadsIntact adjoiningSegments := by
  refine (loadsIntact_iff adjoiningSegments_wellFormed).mpr (harmless_of_displacement ?_)
  rw [adjoiningSegments_headers]
  decide

theorem sharedSector_headers : proghdrs sharedSector =
    [⟨0x1000, 0x100000, 0x100, 0x100⟩, ⟨0x2100, 0x100100, 0x100, 0x100⟩] := by
  decide +kernel

/-- The second segment brings the image byte at 0x2000 to the first byte of the first one. -/
theorem loadsIntact_sharedSector : WellFormedImage sharedSector ∧ ¬LoadsIntact sharedSector := by
  have wellFormed : WellFormedImage sharedSector := by
    refine ⟨by decide +kernel, by decide +kernel, ?_, ?_, ?_, ?_⟩ <;>
      (rw [sharedSector_headers]; decide)
  refine ⟨wellFormed, ?_⟩
  intro intact
  have same := intact.harmless wellFormed [] _ _ sharedSector_headers 0 (by decide) _ rfl
  exact absurd same (by decide)

/-! ### The rest of memory -/

/-- The boot loader changes nothing but the page of the header and the sectors of the segments: not
itself, its stack and its descriptors below 0x10000, and nothing else below 1MB. -/
theorem bootmain_spares {disk : Disk} (wellFormed : WellFormedImage disk) (m : Mem) :
    ∃ m', bootmain disk m = .ok (.call (elfOf disk).eEntry m') ∧
      (∀ a, Spared disk a → m' a = m a) ∧
      ∀ a : BitVec 32, a.toNat < 0x10000 ∨ 0x11000 ≤ a.toNat ∧ a.toNat < 0x100000 →
        m' a = m a :=
  ⟨_, bootmain_eq wellFormed m, fun _ spared => loaded_spared spared m,
    fun _ low => loaded_spared (spared_low wellFormed low) m⟩

theorem bootmain_spares_adjoining :
    ∃ m', bootmain adjoiningSegments (fun _ => 0xCC) =
        .ok (.call (elfOf adjoiningSegments).eEntry m') ∧
      (∀ a, Spared adjoiningSegments a → m' a = 0xCC) ∧
      ∀ a : BitVec 32, a.toNat < 0x10000 ∨ 0x11000 ≤ a.toNat ∧ a.toNat < 0x100000 →
        m' a = 0xCC :=
  bootmain_spares adjoiningSegments_wellFormed fun _ => 0xCC

end Jos
