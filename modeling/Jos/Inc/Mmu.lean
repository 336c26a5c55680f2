import Jos.Library.Paging

/-!
# inc/mmu.h

The macros that take linear addresses and page table entries apart, next to what the processor
does with them.
-/
namespace Jos

open Library

/-! ### Linear addresses -/

def PGSIZE : Nat := 4096

/-- Page directory entries per page directory. -/
def NPDENTRIES : Nat := 1024

/-- Page table entries per page table. -/
def NPTENTRIES : Nat := 1024

/-- Offset of `PTX` in a linear address. -/
def PTXSHIFT : Nat := 12

/-- Offset of `PDX` in a linear address. -/
def PDXSHIFT : Nat := 22

/-- Page directory index. -/
def PDX (la : BitVec 32) : BitVec 32 := (la >>> PDXSHIFT) &&& 0x3FF#32

/-- Page table index. -/
def PTX (la : BitVec 32) : BitVec 32 := (la >>> PTXSHIFT) &&& 0x3FF#32

/-- Offset in page. -/
def PGOFF (la : BitVec 32) : BitVec 32 := la &&& 0xFFF#32

/-- Construct linear address from indexes and offset. -/
def PGADDR (d t o : BitVec 32) : BitVec 32 := d <<< PDXSHIFT ||| t <<< PTXSHIFT ||| o

/-! ### Entries -/

/-- Present -/
def PTE_P : BitVec 32 := 0x001

/-- Writeable -/
def PTE_W : BitVec 32 := 0x002

/-- Address in page table or page directory entry. -/
def PTE_ADDR (pte : BitVec 32) : BitVec 32 := pte &&& ~~~0xFFF#32

/-! ### Indexes in arithmetic -/

theorem PDX_toNat (la : BitVec 32) : (PDX la).toNat = la.toNat / 4194304 := by
  have bound := la.isLt
  rw [PDX, PDXSHIFT, BitVec.toNat_and, BitVec.toNat_ushiftRight, Nat.shiftRight_eq_div_pow]
  exact (Nat.and_two_pow_sub_one_eq_mod _ 10).trans (Nat.mod_eq_of_lt (by omega))

theorem PTX_toNat (la : BitVec 32) : (PTX la).toNat = la.toNat / 4096 % 1024 := by
  rw [PTX, PTXSHIFT, BitVec.toNat_and, BitVec.toNat_ushiftRight, Nat.shiftRight_eq_div_pow]
  exact Nat.and_two_pow_sub_one_eq_mod _ 10

theorem PGOFF_toNat (la : BitVec 32) : (PGOFF la).toNat = la.toNat % 4096 := by
  rw [PGOFF, BitVec.toNat_and]
  exact Nat.and_two_pow_sub_one_eq_mod _ 12

theorem PGADDR_toNat {d t o : BitVec 32} (directory : d.toNat < 1024) (table : t.toNat < 1024)
    (offset : o.toNat < 4096) :
    (PGADDR d t o).toNat = d.toNat * 4194304 + t.toNat * 4096 + o.toNat := by
  have high : (d <<< PDXSHIFT).toNat = d.toNat <<< 22 := by
    rw [BitVec.toNat_shiftLeft, PDXSHIFT, Nat.mod_eq_of_lt (by rw [Nat.shiftLeft_eq]; omega)]
  have middle : (t <<< PTXSHIFT).toNat = t.toNat <<< 12 := by
    rw [BitVec.toNat_shiftLeft, PTXSHIFT, Nat.mod_eq_of_lt (by rw [Nat.shiftLeft_eq]; omega)]
  -- no two of the three have a bit in common
  have low : t.toNat <<< 12 ||| o.toNat = t.toNat <<< 12 + o.toNat :=
    (Nat.shiftLeft_add_eq_or_of_lt offset _).symm
  have inside : t.toNat <<< 12 + o.toNat < 2 ^ 22 := by
    rw [Nat.shiftLeft_eq]
    omega
  rw [PGADDR, BitVec.toNat_or, BitVec.toNat_or, high, middle, Nat.or_assoc, low,
    ← Nat.shiftLeft_add_eq_or_of_lt inside, Nat.shiftLeft_eq, Nat.shiftLeft_eq, ← Nat.add_assoc]

/-- An address is made up of its parts. -/
theorem PGADDR_parts (la : BitVec 32) : PGADDR (PDX la) (PTX la) (PGOFF la) = la := by
  have bound := la.isLt
  have directory := PDX_toNat la
  have table := PTX_toNat la
  have offset := PGOFF_toNat la
  rw [← BitVec.toNat_inj, PGADDR_toNat (by omega) (by omega) (by omega), directory, table, offset]
  omega

/-- The parts of an address that is made up of them. -/
theorem parts_PGADDR {d t o : BitVec 32} (directory : d.toNat < 1024) (table : t.toNat < 1024)
    (offset : o.toNat < 4096) :
    PDX (PGADDR d t o) = d ∧ PTX (PGADDR d t o) = t ∧ PGOFF (PGADDR d t o) = o := by
  have whole := PGADDR_toNat directory table offset
  refine ⟨?_, ?_, ?_⟩ <;> rw [← BitVec.toNat_inj]
  · rw [PDX_toNat, whole]
    omega
  · rw [PTX_toNat, whole]
    omega
  · rw [PGOFF_toNat, whole]
    omega

/-- An address has one page directory index, one page table index and one offset: `PDX`, `PTX` and
`PGOFF` take it apart, and `PGADDR` is their inverse. -/
theorem linear_address_unique :
    (∀ la : BitVec 32, (PDX la).toNat < NPDENTRIES ∧ (PTX la).toNat < NPTENTRIES ∧
      (PGOFF la).toNat < PGSIZE ∧ PGADDR (PDX la) (PTX la) (PGOFF la) = la) ∧
    ∀ d t o : BitVec 32, d.toNat < NPDENTRIES → t.toNat < NPTENTRIES → o.toNat < PGSIZE →
      PDX (PGADDR d t o) = d ∧ PTX (PGADDR d t o) = t ∧ PGOFF (PGADDR d t o) = o := by
  constructor
  · intro la
    have bound := la.isLt
    have directory := PDX_toNat la
    have table := PTX_toNat la
    have offset := PGOFF_toNat la
    dsimp only [NPDENTRIES, NPTENTRIES, PGSIZE]
    exact ⟨by omega, by omega, by omega, PGADDR_parts la⟩
  · intro d t o directory table offset
    exact parts_PGADDR directory table offset

theorem linear_address_unique_monitor :
    PGADDR (PDX 0xF0100A5C) (PTX 0xF0100A5C) (PGOFF 0xF0100A5C) = 0xF0100A5C ∧
      PDX (PGADDR 960 256 0xA5C) = 960 ∧ PTX (PGADDR 960 256 0xA5C) = 256 ∧
      PGOFF (PGADDR 960 256 0xA5C) = 0xA5C :=
  ⟨(linear_address_unique.1 0xF0100A5C).2.2.2,
    linear_address_unique.2 960 256 0xA5C (by decide) (by decide) (by decide)⟩

/-! ### The processor -/

theorem pdeAt_eq (dir la : BitVec 32) : pdeAt dir la = dir + PDX la * 4 := by
  have index : la >>> 22 = PDX la := by
    rw [← BitVec.toNat_inj, PDX_toNat, BitVec.toNat_ushiftRight, Nat.shiftRight_eq_div_pow]
  rw [pdeAt, index]

theorem pteAt_eq (m : Mem) (dir la : BitVec 32) :
    pteAt m dir la = PTE_ADDR (load32 m (dir + PDX la * 4)) + PTX la * 4 := by
  rw [pteAt, pdeAt_eq]
  rfl

/-- A page table's entry that allows the access gives the page, and the address its offset. -/
theorem target_eq {m : Mem} {dir la pde pte : BitVec 32} {write : Bool}
    (directory : load32 m (dir + PDX la * 4) = pde)
    (table : load32 m (PTE_ADDR pde + PTX la * 4) = pte) :
    target m dir write la = if permits pde write && permits pte write then
      some (PTE_ADDR pte ||| PGOFF la) else none := by
  rw [target, pteAt_eq, pdeAt_eq, directory, table]
  rfl

end Jos
