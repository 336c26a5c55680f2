import Jos.Boot.DiskPorts
import Mathlib.Data.List.GetD

/-!
# boot/sign.pl and kern/Makefrag: the disk image

From the boot block and the kernel, as files, to a disk image, and from a disk with this image to
the kernel in memory.
-/
namespace Jos

open Library

/-! ### kernel.img -/

def sign (boot : List (BitVec 8)) : Option (List (BitVec 8)) :=
  let buf := boot.take 1000
  let n := buf.length
  -- boot block too large
  if n > 510 then none
  else some (buf ++ List.replicate (510 - n) 0 ++ [0x55, 0xAA])

/-- `dd if=input of=img seek=seek conv=notrunc` -/
def ddNotrunc (input : List (BitVec 8)) (seek : Nat) (img : List (BitVec 8)) : List (BitVec 8) :=
  let before := SECTSIZE * seek
  img.take before ++ List.replicate (before - img.length) 0 ++
    (input ++ img.drop (before + input.length))

def kernelImg (boot kernel : List (BitVec 8)) : Option (List (BitVec 8)) := do
  let boot ← sign boot
  -- dd if=/dev/zero count=10000
  let img := List.replicate (SECTSIZE * 10000) 0
  some (ddNotrunc kernel 1 (ddNotrunc boot 0 img))

/-- The disk behind a file -/
def fileDisk (img : List (BitVec 8)) : Disk := fun n => img.getD n 0

theorem ddNotrunc_byte (input : List (BitVec 8)) (seek : Nat) (img : List (BitVec 8)) (n : Nat) :
    fileDisk (ddNotrunc input seek img) n =
      if SECTSIZE * seek ≤ n ∧ n < SECTSIZE * seek + input.length then
        input.getD (n - SECTSIZE * seek) 0
      else fileDisk img n := by
  rw [fileDisk, fileDisk, ddNotrunc]
  generalize SECTSIZE * seek = before
  have padded : (img.take before ++ List.replicate (before - img.length) 0).length = before := by
    rw [List.length_append, List.length_take, List.length_replicate]
    omega
  by_cases below : n < before
  · rw [if_neg (by omega), List.getD_append _ _ _ _ (by omega)]
    simp only [List.getD_eq_getElem?_getD, List.getElem?_append, List.getElem?_take, below, if_true,
      List.length_take, List.getElem?_replicate]
    by_cases held : n < img.length
    · rw [if_pos (by omega)]
    · rw [if_neg (by omega), if_pos (by omega), List.getElem?_eq_none (by omega)]
      rfl
  · rw [List.getD_append_right _ _ _ _ (by omega), padded]
    by_cases inside : n < before + input.length
    · rw [if_pos ⟨by omega, inside⟩, List.getD_append _ _ _ _ (by omega)]
    · rw [if_neg (by omega), List.getD_append_right _ _ _ _ (by omega),
        List.getD_eq_getElem?_getD, List.getElem?_drop, List.getD_eq_getElem?_getD]
      congr 2
      omega

theorem kernelImg_none {boot : List (BitVec 8)} (large : 510 < boot.length)
    (kernel : List (BitVec 8)) : kernelImg boot kernel = none := by
  have refused : sign boot = none := by
    rw [sign]
    exact if_pos (by rw [List.length_take]; omega)
  rw [kernelImg, refused]
  rfl

theorem sign_eq {boot : List (BitVec 8)} (fits : boot.length ≤ 510) :
    sign boot = some (boot ++ List.replicate (510 - boot.length) 0 ++ [0x55, 0xAA]) := by
  rw [sign, List.take_of_length_le (by omega)]
  exact if_neg (by omega)

/-- Sector 0 is the boot block with its signature, and the kernel starts at sector 1. -/
theorem kernelImg_eq {boot : List (BitVec 8)} (fits : boot.length ≤ 510)
    (kernel : List (BitVec 8)) :
    ∃ img, kernelImg boot kernel = some img ∧ (∀ i < 510, fileDisk img i = boot.getD i 0) ∧
      (fileDisk img 510 = 0x55 ∧ fileDisk img 511 = 0xAA) ∧
      ∀ j, image (fileDisk img) j = kernel.getD j 0 := by
  have size : SECTSIZE = 512 := rfl
  generalize signed : boot ++ List.replicate (510 - boot.length) 0 ++ [0x55, 0xAA] = sector
  have length : sector.length = 512 := by
    rw [← signed, List.length_append, List.length_append, List.length_replicate]
    simp only [List.length_cons, List.length_nil]
    omega
  refine ⟨_, by rw [kernelImg, sign_eq fits, signed]; rfl, ?_⟩
  have blank (n : Nat) : fileDisk (List.replicate (SECTSIZE * 10000) 0) n = 0 := by
    rw [fileDisk, List.getD_eq_getElem?_getD, List.getElem?_replicate]
    split <;> rfl
  generalize List.replicate (SECTSIZE * 10000) (0 : BitVec 8) = zeros at blank ⊢
  have low (i : Nat) (inside : i < 512) :
      fileDisk (ddNotrunc kernel 1 (ddNotrunc sector 0 zeros)) i = sector.getD i 0 := by
    rw [ddNotrunc_byte, ddNotrunc_byte, if_neg (by omega), if_pos (by omega), Nat.mul_zero,
      Nat.sub_zero]
  refine ⟨fun i inside => ?_, ⟨?_, ?_⟩, fun j => ?_⟩
  · rw [low i (by omega), ← signed, List.append_assoc]
    by_cases held : i < boot.length
    · rw [List.getD_append _ _ _ _ held]
    · rw [List.getD_append_right _ _ _ _ (by omega),
        List.getD_append _ _ _ _ (by rw [List.length_replicate]; omega),
        List.getD_eq_default boot _ (by omega), List.getD_eq_getElem?_getD, List.getElem?_replicate]
      split <;> rfl
  · rw [low 510 (by decide), ← signed, List.getD_append_right _ _ _ _ (by simp; omega)]
    simp [show boot.length + (510 - boot.length) = 510 by omega]
  · rw [low 511 (by decide), ← signed, List.getD_append_right _ _ _ _ (by simp; omega)]
    simp [show boot.length + (510 - boot.length) = 510 by omega]
  · rw [image, ddNotrunc_byte, ddNotrunc_byte, blank]
    by_cases held : j < kernel.length
    · rw [if_pos (by omega), Nat.mul_one, Nat.add_sub_cancel_left]
    · rw [if_neg (by omega), if_neg (by omega), List.getD_eq_default _ _ (by omega)]

/-! ### The files -/

/-- A disk with nothing but the kernel -/
def rawDisk (kernel : List (BitVec 8)) : Disk := fun n => kernel.getD (n - SECTSIZE) 0

theorem image_rawDisk (kernel : List (BitVec 8)) (j : Nat) :
    image (rawDisk kernel) j = kernel.getD j 0 := by
  rw [image, rawDisk, Nat.add_sub_cancel_left]

section Congr

variable {disk disk' : Disk}

theorem elfOf_congr (same : image disk = image disk') : elfOf disk = elfOf disk' := by
  unfold elfOf imageMem
  rw [same]

theorem proghdrs_congr (same : image disk = image disk') : proghdrs disk = proghdrs disk' := by
  unfold proghdrs imageMem
  rw [elfOf_congr same, same]

theorem WellFormedImage.congr (same : image disk = image disk')
    (wellFormed : WellFormedImage disk) : WellFormedImage disk' := by
  obtain ⟨magic, headers, ordered, within, sizes, congruent⟩ := wellFormed
  rw [elfOf_congr same] at magic headers
  rw [proghdrs_congr same] at ordered within sizes congruent
  exact ⟨magic, headers, ordered, within, sizes, congruent⟩

theorem Harmless.congr (same : image disk = image disk') (harmless : Harmless disk) :
    Harmless disk' := by
  rw [Harmless, proghdrs_congr same, same] at harmless
  exact harmless

theorem Spared.congr (same : image disk = image disk') {a : BitVec 32} (spared : Spared disk a) :
    Spared disk' a := by
  rw [Spared, proghdrs_congr same] at spared
  exact spared

end Congr

/-- The kernel is loaded: the file bytes of all its segments are in their places, and memory is as
it was outside the page of the header and the sectors of the segments. -/
structure KernelLoaded (kernel : List (BitVec 8)) (m m' : Mem) : Prop where
  segments : ∀ s ∈ proghdrs (rawDisk kernel), ∀ i < s.pFilesz.toNat,
    m' (s.pPa + BitVec.ofNat 32 i) = kernel.getD (s.pOffset.toNat + i) 0
  spared : ∀ a, Spared (rawDisk kernel) a → m' a = m a

theorem image_loads {kernel : List (BitVec 8)} (wellFormed : WellFormedImage (rawDisk kernel))
    (harmless : Harmless (rawDisk kernel)) {disk : Disk}
    (same : image (rawDisk kernel) = image disk) (m : Mem) :
    ∃ m', bootmain disk m = .ok (.call (elfOf (rawDisk kernel)).eEntry m') ∧
      KernelLoaded kernel m m' := by
  have wellFormed' := wellFormed.congr same
  obtain ⟨m', booted, bytes⟩ := (harmless.congr same).loadsIntact wellFormed' m
  rw [bootmain_eq wellFormed'] at booted
  obtain ⟨-, rfl⟩ := Boot.call.inj (Except.ok.inj booted)
  rw [elfOf_congr same]
  refine ⟨_, bootmain_eq wellFormed' m, fun s member i inside => ?_,
    fun a spared => loaded_spared (spared.congr same) m⟩
  rw [bytes s (by rwa [← proghdrs_congr same]) i inside, ← same, image_rawDisk]

/-- The image starts with the signed boot block, and the boot block's `bootmain`, on a disk with
the image that takes as long as it likes, calls the entry point of the kernel with the kernel
loaded. There is an image unless the boot block is too large. -/
theorem kernelImg_boots (boot : List (BitVec 8)) {kernel : List (BitVec 8)}
    (wellFormed : WellFormedImage (rawDisk kernel)) (harmless : Harmless (rawDisk kernel)) :
    (kernelImg boot kernel = none ↔ 510 < boot.length) ∧
      ∀ img, kernelImg boot kernel = some img →
        (∀ i < 510, fileDisk img i = boot.getD i 0) ∧
        (fileDisk img 510 = 0x55 ∧ fileDisk img 511 = 0xAA) ∧
        ∀ fuel d m, Idle fuel (fileDisk img) d →
          ∃ d' m', bootmainPorts fuel (d, m) =
              .ok (d', .call (elfOf (rawDisk kernel)).eEntry m') ∧
            Idle fuel (fileDisk img) d' ∧ KernelLoaded kernel m m' := by
  by_cases large : 510 < boot.length
  · have refused := kernelImg_none large kernel
    exact ⟨⟨fun _ => large, fun _ => refused⟩, fun img made => by rw [refused] at made; cases made⟩
  · obtain ⟨img, made, first, signed, rest⟩ := kernelImg_eq (by omega : boot.length ≤ 510) kernel
    have some' : kernelImg boot kernel ≠ none := by
      rw [made]
      exact Option.some_ne_none img
    refine ⟨⟨fun refused => absurd refused some', fun big => absurd big large⟩, ?_⟩
    intro img' made'
    obtain rfl := Option.some.inj (made.symm.trans made')
    have same : image (rawDisk kernel) = image (fileDisk img) :=
      funext fun j => (image_rawDisk kernel j).trans (rest j).symm
    refine ⟨first, signed, fun fuel d m idle => ?_⟩
    obtain ⟨m', booted, loaded⟩ := image_loads wellFormed harmless same m
    obtain ⟨d', ported, idle'⟩ := bootmainPorts_eq idle booted
    exact ⟨d', m', ported, idle', loaded⟩

/-! ### A small kernel -/

/-- Two segments in one sector of memory as they are in one sector of the file; the second one has
more memory than file, and more than a sector of each. -/
def smallFileWords : List (BitVec 32) :=
  elfWords 2 ++ [1, 0x1000, 0, 0x100000, 0x100, 0x100, 0, 0] ++
    [1, 0x1100, 0, 0x100100, 0x500, 0x900, 0, 0]

def smallFileByte (j : Nat) : BitVec 8 :=
  if j < 0x1000 then ((smallFileWords.getD (j / 4) 0) >>> (8 * (j % 4))).setWidth 8
  else .ofNat 8 (7 * j)

def smallFile : List (BitVec 8) := (List.range 0x1600).map smallFileByte

def smallFileDisk : Disk := fun n =>
  if n - SECTSIZE < 0x1600 then smallFileByte (n - SECTSIZE) else 0

theorem smallFile_byte (j : Nat) :
    smallFile.getD j 0 = if j < 0x1600 then smallFileByte j else 0 := by
  rw [smallFile, List.getD_eq_getElem?_getD, List.getElem?_map]
  by_cases inside : j < 0x1600
  · rw [List.getElem?_range inside, if_pos inside]
    rfl
  · rw [List.getElem?_eq_none (by rw [List.length_range]; omega), if_neg inside]
    rfl

theorem smallFile_image : image smallFileDisk = image (rawDisk smallFile) := by
  funext j
  rw [image_rawDisk, smallFile_byte, image, smallFileDisk, Nat.add_sub_cancel_left]

theorem smallFileDisk_headers : proghdrs smallFileDisk =
    [⟨0x1000, 0x100000, 0x100, 0x100⟩, ⟨0x1100, 0x100100, 0x500, 0x900⟩] := by
  decide +kernel

theorem smallFile_wellFormed : WellFormedImage (rawDisk smallFile) := by
  refine WellFormedImage.congr smallFile_image
    ⟨by decide +kernel, by decide +kernel, ?_, ?_, ?_, ?_⟩ <;>
    (rw [smallFileDisk_headers]; decide)

theorem smallFile_harmless : Harmless (rawDisk smallFile) := by
  refine Harmless.congr smallFile_image (harmless_of_displacement ?_)
  rw [smallFileDisk_headers]
  decide

theorem kernelImg_boots_small :
    ∃ img d' m', kernelImg [0xFA, 0xFC, 0x31, 0xC0] smallFile = some img ∧
      fileDisk img 2 = 0x31 ∧ fileDisk img 511 = 0xAA ∧
      bootmainPorts 8 (slowDisk (fileDisk img), fun _ => 0xCC) =
        .ok (d', .call (elfOf (rawDisk smallFile)).eEntry m') ∧
      KernelLoaded smallFile (fun _ => 0xCC) m' := by
  obtain ⟨refused, boots⟩ :=
    kernelImg_boots [0xFA, 0xFC, 0x31, 0xC0] smallFile_wellFormed smallFile_harmless
  obtain ⟨img, made⟩ := Option.ne_none_iff_exists'.mp (fun none' => absurd (refused.mp none')
    (by decide))
  obtain ⟨first, signed, loads⟩ := boots img made
  obtain ⟨d', m', booted, -, loaded⟩ := loads 8 _ (fun _ => 0xCC) (slowDisk_idle (fileDisk img))
  exact ⟨img, d', m', made, first 2 (by decide), signed.2, booted, loaded⟩

end Jos
