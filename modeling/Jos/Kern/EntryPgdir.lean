import Jos.Inc.Mmu
import Jos.Kern.ConsoleOutput
import Mathlib.Data.Option.Basic

/-!
# kern/entrypgdir.c

The page directory and the page table that the kernel starts with. The processor walks them for
every access, marks their entries, and keeps its hands off the rest.
-/
namespace Jos

open Library

/-- Maps a symbol from its link address to its actual location in physical memory. -/
def RELOC (x : BitVec 32) : BitVec 32 := x - KERNBASE

/-- The 1024 entries of `entry_pgtable`: entry 0 maps to physical page 0, entry 1 to physical
page 1, etc. -/
def entryPgtable (i : Nat) : BitVec 32 := BitVec.ofNat 32 (PGSIZE * i) ||| PTE_P ||| PTE_W

/-- The 1024 entries of `entry_pgdir`, for a page table that is linked at `pgtable`. -/
def entryPgdir (pgtable : BitVec 32) (i : Nat) : BitVec 32 :=
  -- Map VA's [0, 4MB) to PA's [0, 4MB)
  if i = 0 then (pgtable - KERNBASE) + PTE_P
  -- Map VA's [KERNBASE, KERNBASE+4MB) to PA's [0, 4MB)
  else if i = (KERNBASE >>> PDXSHIFT).toNat then (pgtable - KERNBASE) + PTE_P + PTE_W
  else 0

/-- The two arrays are in physical memory, each in a page of its own. -/
structure EntryTables (m : Mem) (pgdir pgtable : BitVec 32) : Prop where
  pgdirPage : PTE_ADDR pgdir = pgdir
  pgtablePage : PTE_ADDR pgtable = pgtable
  pgdirHeld : ∀ i < NPDENTRIES,
    load32 m (RELOC pgdir + BitVec.ofNat 32 (4 * i)) = entryPgdir pgtable i
  pgtableHeld : ∀ i < NPTENTRIES,
    load32 m (RELOC pgtable + BitVec.ofNat 32 (4 * i)) = entryPgtable i

/-- 4MB, which is as much as one page table maps. -/
def PTSIZE : Nat := PGSIZE * NPTENTRIES

/-- What the tables are for: physical memory from 0 on for reading, and from KERNBASE on for
reading and writing. -/
def entrySpace (write : Bool) (la : BitVec 32) : Option (BitVec 32) :=
  if la.toNat < PTSIZE then if write then none else some la
  else if KERNBASE.toNat ≤ la.toNat ∧ la.toNat < KERNBASE.toNat + PTSIZE then some (la - KERNBASE)
  else none

/-- The two physical pages. -/
def entryPages (pgdir pgtable page : BitVec 32) : Prop := page = RELOC pgdir ∨ page = RELOC pgtable

instance (pgdir pgtable page : BitVec 32) : Decidable (entryPages pgdir pgtable page) :=
  inferInstanceAs (Decidable (_ ∨ _))

/-! ### Translation -/

section Tables

variable {m : Mem} {pgdir pgtable : BitVec 32}

theorem reloc_page {a : BitVec 32} (aligned : PTE_ADDR a = a) : frame (RELOC a) = RELOC a := by
  have whole := frame_toNat a
  have linked : frame a = a := aligned
  rw [linked] at whole
  rw [← BitVec.toNat_inj, frame_toNat, RELOC, KERNBASE]
  have bound := a.isLt
  bv_omega

/-- An entry that is written with `+`. -/
theorem entry_bits {page : BitVec 32} (flags : BitVec 32) (aligned : frame page = page)
    (small : flags.toNat < 4096) :
    frame (page + flags) = page ∧ ∀ i, i < 12 → (page + flags).getLsbD i = flags.getLsbD i := by
  have whole := frame_toNat page
  rw [aligned] at whole
  have bound := page.isLt
  have sum : (page + flags).toNat = page.toNat + flags.toNat := by
    rw [BitVec.toNat_add_of_lt (by omega)]
  constructor
  · rw [← aligned, frame_eq_iff, aligned, sum]
    omega
  · intro i low
    have split : page.toNat + flags.toNat = 4096 * (page.toNat / 4096) + flags.toNat := by omega
    rw [BitVec.getLsbD, BitVec.getLsbD, sum, split,
      Nat.testBit_two_pow_mul_add (i := 12) _ small, if_pos low]

theorem permits_eq {e flags : BitVec 32} (bits : ∀ i, i < 12 → e.getLsbD i = flags.getLsbD i)
    (write : Bool) : permits e write = permits flags write := by
  rw [permits, permits, bits 0 (by decide), bits 1 (by decide)]

theorem entryPgtable_page {i : Nat} (inside : i < NPTENTRIES) :
    frame (entryPgtable i) = BitVec.ofNat 32 (4096 * i) ∧
      ∀ write, permits (entryPgtable i) write = true := by
  have small : i < 1024 := inside
  have page : (BitVec.ofNat 32 (4096 * i)).toNat = 4096 * i := by
    rw [BitVec.toNat_ofNat]
    omega
  have aligned : frame (BitVec.ofNat 32 (4096 * i)) = BitVec.ofNat 32 (4096 * i) := by
    rw [← BitVec.toNat_inj, frame_toNat, page]
    omega
  -- the flags have no bit in common with the page
  have sum : entryPgtable i = BitVec.ofNat 32 (4096 * i) + 3#32 := by
    have flags : PTE_P ||| PTE_W = 3#32 := by decide
    rw [entryPgtable, BitVec.or_assoc, flags, ← BitVec.toNat_inj, BitVec.toNat_or,
      BitVec.toNat_add_of_lt (by rw [page]; simp; omega), PGSIZE, page]
    exact (Nat.two_pow_add_eq_or_of_lt (i := 12) (by decide : 3 < 2 ^ 12) i).symm
  obtain ⟨base, bits⟩ := entry_bits 3#32 aligned (by decide)
  refine ⟨by rw [sum, base], fun write => ?_⟩
  rw [sum, permits_eq bits]
  cases write <;> rfl

/-- The directory's two entries, and the others. -/
theorem entryPgdir_cases {i : Nat} (aligned : PTE_ADDR pgtable = pgtable) :
    i = 0 ∧ frame (entryPgdir pgtable i) = RELOC pgtable ∧
        (∀ write, permits (entryPgdir pgtable i) write = !write) ∨
      i = 960 ∧ frame (entryPgdir pgtable i) = RELOC pgtable ∧
        (∀ write, permits (entryPgdir pgtable i) write = true) ∨
      (i ≠ 0 ∧ i ≠ 960 ∧ ∀ write, permits (entryPgdir pgtable i) write = false) := by
  have page := reloc_page aligned
  have kernel : (KERNBASE >>> PDXSHIFT).toNat = 960 := by decide
  rw [entryPgdir, kernel]
  by_cases low : i = 0
  · obtain ⟨base, bits⟩ := entry_bits PTE_P page (by decide)
    rw [if_pos low]
    refine .inl ⟨low, base, fun write => ?_⟩
    exact (permits_eq bits write).trans (by cases write <;> rfl)
  · rw [if_neg low]
    by_cases high : i = 960
    · obtain ⟨base, bits⟩ := entry_bits (PTE_P + PTE_W) page (by decide)
      rw [if_pos high, BitVec.add_assoc]
      refine .inr (.inl ⟨high, base, fun write => ?_⟩)
      exact (permits_eq bits write).trans (by cases write <;> rfl)
    · rw [if_neg high]
      exact .inr (.inr ⟨low, high, fun write => by cases write <;> rfl⟩)

theorem index_place (base i : BitVec 32) : base + i * 4 = base + BitVec.ofNat 32 (4 * i.toNat) := by
  bv_omega

theorem EntryTables.pde (tables : EntryTables m pgdir pgtable) (la : BitVec 32) :
    load32 m (RELOC pgdir + PDX la * 4) = entryPgdir pgtable (PDX la).toNat := by
  have inside : (PDX la).toNat < NPDENTRIES := by
    rw [PDX_toNat, NPDENTRIES]
    have bound := la.isLt
    omega
  rw [index_place, tables.pgdirHeld _ inside]

theorem EntryTables.pte (tables : EntryTables m pgdir pgtable) (la : BitVec 32) :
    load32 m (RELOC pgtable + PTX la * 4) = entryPgtable (PTX la).toNat := by
  have inside : (PTX la).toNat < NPTENTRIES := by
    rw [PTX_toNat, NPTENTRIES]
    omega
  rw [index_place, tables.pgtableHeld _ inside]

/-- The page table maps an address to the same place in the first 4MB. -/
theorem page_place (la : BitVec 32) :
    (frame (entryPgtable (PTX la).toNat) ||| PGOFF la).toNat = la.toNat % 4194304 := by
  have index := PTX_toNat la
  have inside : (PTX la).toNat < NPTENTRIES := by
    rw [index, NPTENTRIES]
    omega
  have offset : (PGOFF la).toNat < 2 ^ 12 := by
    rw [PGOFF_toNat]
    omega
  have page : (BitVec.ofNat 32 (4096 * (PTX la).toNat)).toNat = 2 ^ 12 * (PTX la).toNat := by
    rw [BitVec.toNat_ofNat]
    omega
  rw [(entryPgtable_page inside).1, BitVec.toNat_or, page,
    ← Nat.two_pow_add_eq_or_of_lt offset, index, PGOFF_toNat]
  omega

/-- The address space by the index into the directory. -/
theorem entrySpace_index (write : Bool) (la : BitVec 32) :
    entrySpace write la =
      if (PDX la).toNat = 0 then if write then none else some la
      else if (PDX la).toNat = 960 then some (la - KERNBASE) else none := by
  have base : KERNBASE.toNat = 4026531840 := by decide
  have size : PTSIZE = 4194304 := rfl
  have index := PDX_toNat la
  exact if_congr (by omega) rfl (if_congr (by omega) rfl rfl)

/-- Every access goes where `entrySpace` says, or faults where it says so. -/
theorem EntryTables.maps (tables : EntryTables m pgdir pgtable) (write : Bool) (la : BitVec 32) :
    target m (RELOC pgdir) write la = entrySpace write la := by
  have base : KERNBASE.toNat = 4026531840 := by decide
  have index := PDX_toNat la
  have place := page_place la
  have walked := tables.pte la
  have present := (entryPgtable_page (i := (PTX la).toNat) (by
    rw [PTX_toNat, NPTENTRIES]
    omega)).2 write
  rw [entrySpace_index]
  rcases entryPgdir_cases (i := (PDX la).toNat) tables.pgtablePage with
    ⟨low, page, permitted⟩ | ⟨high, page, permitted⟩ | ⟨low, high, permitted⟩
  · rw [← page] at walked
    rw [if_pos low, target_eq (tables.pde la) walked, permitted, present]
    cases write with
    | true => rfl
    | false => exact congrArg some (BitVec.eq_of_toNat_eq (place.trans (by omega)))
  · rw [← page] at walked
    rw [if_neg (by omega), if_pos high, target_eq (tables.pde la) walked, permitted, present]
    refine congrArg some (BitVec.eq_of_toNat_eq (place.trans ?_))
    rw [BitVec.toNat_sub_of_le (by rw [BitVec.le_def]; omega)]
    omega
  · rw [if_neg low, if_neg high, target_eq (tables.pde la) rfl, permitted]
    rfl

/-- The tables in the library's terms. -/
theorem EntryTables.tables (tables : EntryTables m pgdir pgtable) :
    Tables m (RELOC pgdir) (entryPages pgdir pgtable) where
  aligned := reloc_page tables.pgdirPage
  root := .inl rfl
  tables := by
    intro la present
    rw [pdeAt_eq, tables.pde la] at *
    rcases entryPgdir_cases (i := (PDX la).toNat) tables.pgtablePage with
      ⟨-, page, -⟩ | ⟨-, page, -⟩ | ⟨-, -, permitted⟩
    · exact .inr page
    · exact .inr page
    · rw [permitted] at present
      cases present

theorem EntryTables.backs (tables : EntryTables m pgdir pgtable) :
    Backs (RELOC pgdir) (entryPages pgdir pgtable) entrySpace m m :=
  ⟨tables.tables, tables.maps, fun _ _ => rfl, .refl _ _⟩

/-! ### Runs -/

/-- No access gets at the page directory or the page table. -/
def AvoidsTables (pgdir pgtable : BitVec 32) (accesses : List Access) : Prop :=
  ∀ access ∈ accesses, ∀ pa, entrySpace access.isWrite access.la = some pa →
    ¬entryPages pgdir pgtable (PTE_ADDR pa)

instance (pgdir pgtable : BitVec 32) (accesses : List Access) :
    Decidable (AvoidsTables pgdir pgtable accesses) :=
  decidable_of_iff
    (∀ access ∈ accesses, (entrySpace access.isWrite access.la).all
      fun pa => !decide (entryPages pgdir pgtable (PTE_ADDR pa)))
    (by simp [AvoidsTables, Option.all_eq_true])

/-- Two runs that have read the same, with the same memory outside the tables. -/
def SameRun (pgdir pgtable : BitVec 32) (run run' : List (BitVec 8) × Mem) : Prop :=
  run.1 = run'.1 ∧ ∀ a, ¬entryPages pgdir pgtable (PTE_ADDR a) → run.2 a = run'.2 a

/-- With these tables every run of accesses does what it would do on flat memory behind
`entrySpace`: it reads the same, faults at the same access, and leaves the same memory. -/
theorem EntryTables.run_space (tables : EntryTables m pgdir pgtable) (accesses : List Access)
    (avoids : AvoidsTables pgdir pgtable accesses) :
    Option.Rel (SameRun pgdir pgtable) (runAccesses (Access.paged (RELOC pgdir)) accesses m)
      (runAccesses (Access.flat entrySpace) accesses m) := by
  rcases run_refines tables.backs avoids with ⟨fault, fault'⟩ | ⟨out, m', n', run, run', backs⟩
  · rw [fault, fault']
    exact .none
  · rw [run, run']
    exact .some ⟨rfl, backs.bytes⟩

/-- Memory as the kernel addresses it. -/
def kernelMem (m : Mem) : Mem := fun la => m (la - KERNBASE)

/-- An access without paging. -/
def directAccess (m : Mem) (access : Access) : Option (List (BitVec 8) × Mem) :=
  some (access.perform access.la m)

/-- The 4MB that are mapped for the kernel. -/
def InKernel (la : BitVec 32) : Prop :=
  KERNBASE.toNat ≤ la.toNat ∧ la.toNat < KERNBASE.toNat + PTSIZE

instance (la : BitVec 32) : Decidable (InKernel la) := inferInstanceAs (Decidable (_ ∧ _))

theorem entrySpace_kernel {la : BitVec 32} (inside : InKernel la) (write : Bool) :
    entrySpace write la = some (la - KERNBASE) := by
  have base : KERNBASE.toNat = 4026531840 := by decide
  have size : PTSIZE = 4194304 := rfl
  have low := inside.1
  rw [entrySpace, if_neg (by omega)]
  exact if_pos inside

theorem perform_kernel (n : Mem) (access : Access) :
    directAccess (kernelMem n) access =
      some ((access.perform (access.la - KERNBASE) n).1,
        kernelMem (access.perform (access.la - KERNBASE) n).2) := by
  cases access with
  | read la => rfl
  | write la b =>
    have stored : Function.update (kernelMem n) la b =
        kernelMem (Function.update n (la - KERNBASE) b) := by
      funext la'
      have same : la' = la ↔ la' - KERNBASE = la - KERNBASE := by bv_omega
      rw [kernelMem, Function.update_apply, Function.update_apply]
      exact if_congr same rfl rfl
    exact congrArg (fun m => some ([], m)) stored

theorem flat_kernel {accesses : List Access} (inside : ∀ access ∈ accesses, InKernel access.la)
    (n : Mem) :
    ∃ out n', runAccesses (Access.flat entrySpace) accesses n = some (out, n') ∧
      runAccesses directAccess accesses (kernelMem n) = some (out, kernelMem n') := by
  induction accesses generalizing n with
  | nil => exact ⟨[], n, rfl, rfl⟩
  | cons access rest ih =>
    have here := inside access (by simp)
    have step : access.flat entrySpace n = some (access.perform (access.la - KERNBASE) n) := by
      rw [Access.flat, entrySpace_kernel here]
      rfl
    have step' := perform_kernel n access
    generalize access.perform (access.la - KERNBASE) n = performed at step step'
    obtain ⟨read, next⟩ := performed
    obtain ⟨out, n', run, run'⟩ := ih (fun later member => inside later (by simp [member])) next
    exact ⟨read ++ out, n', by rw [runAccesses_cons step, run]; rfl,
      by rw [runAccesses_cons step', run']; rfl⟩

/-- In the 4MB above KERNBASE, and clear of the tables, memory is as flat as C takes it to be. -/
theorem EntryTables.run_kernel (tables : EntryTables m pgdir pgtable) (accesses : List Access)
    (inside : ∀ access ∈ accesses, InKernel access.la)
    (avoids : ∀ access ∈ accesses, ¬entryPages pgdir pgtable (PTE_ADDR (RELOC access.la))) :
    ∃ out m' n', runAccesses (Access.paged (RELOC pgdir)) accesses m = some (out, m') ∧
      runAccesses directAccess accesses (kernelMem m) = some (out, n') ∧
      ∀ la, ¬entryPages pgdir pgtable (PTE_ADDR (RELOC la)) → kernelMem m' la = n' la := by
  obtain ⟨out, n', flat, direct⟩ := flat_kernel inside m
  have clear : AvoidsTables pgdir pgtable accesses := by
    intro access member pa mapped
    rw [entrySpace_kernel (inside access member), Option.some.injEq] at mapped
    rw [← mapped]
    exact avoids access member
  rcases run_refines tables.backs clear with ⟨fault, -⟩ | ⟨out', m', n'', run, run', backs⟩
  · rw [flat] at fault
    cases fault
  · rw [flat, Option.some.injEq, Prod.mk.injEq] at run
    obtain ⟨rfl, rfl⟩ := run
    exact ⟨out, m', kernelMem n', run', direct, fun la outside => backs.bytes _ outside⟩

end Tables

/-! ### A kernel's tables -/

/-- Memory with the tables at the third and the fourth page above 1MB, and zeros. -/
def smallTables : Mem :=
  wordMem fun i =>
    if i / 1024 = 0x102 then entryPgdir 0xF0103000 (i % 1024)
    else if i / 1024 = 0x103 then entryPgtable (i % 1024) else 0

theorem smallTables_entry : EntryTables smallTables 0xF0102000 0xF0103000 where
  pgdirPage := by decide
  pgtablePage := by decide
  pgdirHeld := by
    intro i inside
    have small : i < 1024 := inside
    have place : (RELOC 0xF0102000 + BitVec.ofNat 32 (4 * i)).toNat = 4 * (0x102 * 1024 + i) := by
      rw [RELOC, KERNBASE]
      bv_omega
    rw [smallTables, load32_wordMem _ place, if_pos (by omega)]
    exact congrArg _ (by omega)
  pgtableHeld := by
    intro i inside
    have small : i < 1024 := inside
    have place : (RELOC 0xF0103000 + BitVec.ofNat 32 (4 * i)).toNat = 4 * (0x103 * 1024 + i) := by
      rw [RELOC, KERNBASE]
      bv_omega
    rw [smallTables, load32_wordMem _ place, if_neg (by omega), if_pos (by omega)]
    exact congrArg _ (by omega)

/-- The last access of the three faults, on flat memory as through the tables. -/
theorem run_space_fault :
    Option.Rel (SameRun 0xF0102000 0xF0103000)
      (runAccesses (Access.paged (RELOC 0xF0102000))
        [.write 0xF00B8000 0x41, .read 0xB8000, .write 0xB8000 0x42] smallTables)
      (runAccesses (Access.flat entrySpace)
        [.write 0xF00B8000 0x41, .read 0xB8000, .write 0xB8000 0x42] smallTables) :=
  EntryTables.run_space smallTables_entry _ (by decide)

/-- A byte on the screen, written and read back. -/
theorem run_kernel_screen :
    ∃ out m' n',
      runAccesses (Access.paged (RELOC 0xF0102000)) [.write 0xF00B8000 0x41, .read 0xF00B8000]
        smallTables = some (out, m') ∧
      runAccesses directAccess [.write 0xF00B8000 0x41, .read 0xF00B8000] (kernelMem smallTables) =
        some (out, n') ∧
      ∀ la, ¬entryPages 0xF0102000 0xF0103000 (PTE_ADDR (RELOC la)) →
        kernelMem m' la = n' la :=
  EntryTables.run_kernel smallTables_entry _ (by decide +kernel) (by decide)

end Jos
