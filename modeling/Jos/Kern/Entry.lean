import Jos.Kern.EntryPgdir

/-!
# kern/entry.S

From the entry point, at its physical address and without paging, to the call of `i386_init` at
its link address. For two instructions the code runs with paging on at low addresses, which are
mapped to read. The instructions have the sizes that the assembler gives them.
-/
namespace Jos

open Library

def CR0_PE : BitVec 32 := 0x00000001
def CR0_WP : BitVec 32 := 0x00010000
def CR0_PG : BitVec 32 := 0x80000000

/-! ### The processor -/

inductive EntryInstr where
  /-- `movw $0x1234,0x472` -/
  | movwWarm
  | movlEax (v : BitVec 32)
  | movlEaxCr3
  | movlCr0Eax
  | orlEax (v : BitVec 32)
  | movlEaxCr0
  | jmpEax
  | movlEbp (v : BitVec 32)
  | movlEsp (v : BitVec 32)
  | call (target : BitVec 32)

structure EntryCpu where
  eip : BitVec 32
  eax : BitVec 32
  ebp : BitVec 32
  esp : BitVec 32
  cr0 : BitVec 32
  cr3 : BitVec 32
  mem : Mem

namespace EntryCpu

def paging (c : EntryCpu) : Bool := c.cr0 &&& CR0_PG ≠ 0

/-- Where an instruction is read from. -/
def translate (c : EntryCpu) (la : BitVec 32) : Option (BitVec 32) :=
  if c.paging then target c.mem (PTE_ADDR c.cr3) false la else some la

/-- Accesses with the protection that `CR0_WP` gives; paging without it is left out. -/
def run (c : EntryCpu) (accesses : List Access) : Option (List (BitVec 8) × Mem) :=
  if c.paging then
    if c.cr0 &&& CR0_WP ≠ 0 then runAccesses (Access.paged (PTE_ADDR c.cr3)) accesses c.mem
    else none
  else runAccesses directAccess accesses c.mem

/-- The instruction at `eip` in the text, which lies in physical memory; all its bytes have to be
mapped to it. -/
def fetch (text : BitVec 32 → Option (EntryInstr × Nat)) (c : EntryCpu) :
    Option (EntryInstr × EntryCpu) := do
  let pa ← c.translate c.eip
  let (instr, size) ← text pa
  if ∀ k < size, c.translate (c.eip + BitVec.ofNat 32 k) = some (pa + BitVec.ofNat 32 k) then
    let (_, mem) ← c.run ((List.range size).map fun k => .read (c.eip + BitVec.ofNat 32 k))
    some (instr, { c with eip := c.eip + BitVec.ofNat 32 size, mem })
  else none

/-- The bytes of a word on their way to memory. -/
def storeWord (a v : BitVec 32) : List Access :=
  (List.range 4).map fun k => .write (a + BitVec.ofNat 32 k) (v.extractLsb' (8 * k) 8)

def exec (c : EntryCpu) : EntryInstr → Option EntryCpu
  | .movwWarm => do
    let (_, mem) ← c.run [.write 0x472 0x34, .write 0x473 0x12]
    some { c with mem }
  | .movlEax v => some { c with eax := v }
  | .movlEaxCr3 => some { c with cr3 := c.eax }
  | .movlCr0Eax => some { c with eax := c.cr0 }
  | .orlEax v => some { c with eax := c.eax ||| v }
  | .movlEaxCr0 => some { c with cr0 := c.eax }
  | .jmpEax => some { c with eip := c.eax }
  | .movlEbp v => some { c with ebp := v }
  | .movlEsp v => some { c with esp := v }
  | .call target => do
    let (_, mem) ← c.run (storeWord (c.esp - 4) c.eip)
    some { c with esp := c.esp - 4, eip := target, mem }

def step (text : BitVec 32 → Option (EntryInstr × Nat)) (c : EntryCpu) : Option EntryCpu := do
  let (instr, c) ← c.fetch text
  c.exec instr

/-- `n` instructions -/
def steps (text : BitVec 32 → Option (EntryInstr × Nat)) : Nat → EntryCpu → Option EntryCpu
  | 0, c => some c
  | n + 1, c => do
    let c ← c.step text
    steps text n c

end EntryCpu

/-! ### entry -/

/-- The symbols that entry.S uses. -/
structure EntrySymbols where
  entry : BitVec 32
  relocated : BitVec 32
  entryPgdir : BitVec 32
  entryPgtable : BitVec 32
  bootstacktop : BitVec 32
  i386Init : BitVec 32

/-- The text from `entry` on -/
def entryText (k : EntrySymbols) : List EntryInstr :=
  [.movwWarm,
    -- Load the physical address of entry_pgdir into cr3.
    .movlEax (RELOC k.entryPgdir), .movlEaxCr3,
    -- Turn on paging.
    .movlCr0Eax, .orlEax (CR0_PE ||| CR0_PG ||| CR0_WP), .movlEaxCr0,
    -- Jump up above KERNBASE before entering C code.
    .movlEax k.relocated, .jmpEax,
    -- relocated:
    .movlEbp 0, .movlEsp k.bootstacktop, .call k.i386Init]

/-- Instructions one after the other from a physical address on. -/
def textAt (size : EntryInstr → Nat) : BitVec 32 → List EntryInstr → BitVec 32 →
    Option (EntryInstr × Nat)
  | _, [], _ => none
  | base, instr :: rest, pa =>
    if pa = base then some (instr, size instr)
    else textAt size (base + BitVec.ofNat 32 (size instr)) rest pa

/-- How far the first `n` instructions reach. -/
def textSize (size : EntryInstr → Nat) (text : List EntryInstr) (n : Nat) : Nat :=
  ((text.take n).map size).sum

/-- Where the instruction `j` is in the text from `base` on. -/
def instrAt (size : EntryInstr → Nat) (text : List EntryInstr) (base : BitVec 32) (j : Nat) :
    BitVec 32 :=
  base + BitVec.ofNat 32 (textSize size text j)

/-! ### With and without paging -/

/-- The address space that the processor is in. -/
def EntryCpu.space (c : EntryCpu) : Bool → BitVec 32 → Option (BitVec 32) :=
  if c.paging then entrySpace else fun _ la => some la

/-- The flat memory `n` behind the processor's: the same without paging, and with paging but for
the tables. -/
structure Running (k : EntrySymbols) (c : EntryCpu) (n : Mem) : Prop where
  off : c.paging = false → c.mem = n
  on : c.paging = true →
    Backs (RELOC k.entryPgdir) (entryPages k.entryPgdir k.entryPgtable) entrySpace c.mem n ∧
      c.cr3 = RELOC k.entryPgdir ∧ c.cr0 &&& CR0_WP ≠ 0

section Running

variable {k : EntrySymbols} {c : EntryCpu} {n : Mem}

theorem EntryCpu.space_on (on : c.paging = true) : c.space = entrySpace := by
  rw [EntryCpu.space, on]
  rfl

theorem Running.translate (running : Running k c n) (la : BitVec 32) :
    c.translate la = c.space false la := by
  cases paging : c.paging with
  | false => simp [EntryCpu.translate, EntryCpu.space, paging]
  | true =>
    obtain ⟨backs, cr3, -⟩ := running.on paging
    have aligned : PTE_ADDR (RELOC k.entryPgdir) = RELOC k.entryPgdir := backs.tables.aligned
    simp [EntryCpu.translate, EntryCpu.space, paging, cr3, aligned, backs.maps]

/-- Accesses that keep off the tables do what they do on flat memory. -/
theorem Running.run (running : Running k c n) {accesses : List Access} {out : List (BitVec 8)}
    {n' : Mem} (flat : runAccesses (Access.flat c.space) accesses n = some (out, n'))
    (avoids : ∀ access ∈ accesses, ∀ pa, c.space access.isWrite access.la = some pa →
      ¬entryPages k.entryPgdir k.entryPgtable (frame pa)) :
    ∃ m', c.run accesses = some (out, m') ∧ Running k { c with mem := m' } n' := by
  cases paging : c.paging with
  | false =>
    have space : c.space = fun _ la => some la := by rw [EntryCpu.space, paging]; rfl
    have direct : Access.flat (fun _ la => some la) = directAccess := rfl
    rw [space, direct] at flat
    refine ⟨n', ?_, ⟨fun _ => rfl, fun on => ?_⟩⟩
    · rw [EntryCpu.run, paging, running.off paging]
      exact flat
    · exact absurd (paging.symm.trans on) (by decide)
  | true =>
    obtain ⟨backs, cr3, wp⟩ := running.on paging
    have space := EntryCpu.space_on paging
    have aligned : PTE_ADDR (RELOC k.entryPgdir) = RELOC k.entryPgdir := backs.tables.aligned
    rw [space] at flat avoids
    rcases run_refines backs avoids with ⟨fault, -⟩ | ⟨out', m', n'', ran, ran', backs'⟩
    · rw [flat] at fault
      cases fault
    · rw [flat, Option.some.injEq, Prod.mk.injEq] at ran
      obtain ⟨rfl, rfl⟩ := ran
      refine ⟨m', ?_, ⟨fun off => ?_, fun _ => ⟨backs', cr3, wp⟩⟩⟩
      · rw [EntryCpu.run, paging, if_pos rfl, if_pos wp, cr3, aligned, ran']
      · exact absurd (paging.symm.trans off) (by decide)

theorem flat_reads {space : Bool → BitVec 32 → Option (BitVec 32)} {las : List (BitVec 32)}
    (mapped : ∀ la ∈ las, ∃ pa, space false la = some pa) (n : Mem) :
    ∃ out, runAccesses (Access.flat space) (las.map .read) n = some (out, n) := by
  induction las with
  | nil => exact ⟨[], rfl⟩
  | cons la rest ih =>
    obtain ⟨pa, here⟩ := mapped la (by simp)
    obtain ⟨out, later⟩ := ih fun la member => mapped la (by simp [member])
    have first : Access.flat space n (.read la) = some ([n pa], n) := by
      rw [Access.flat]
      exact congrArg (Option.map _) here
    exact ⟨n pa :: out, by rw [List.map_cons, runAccesses_cons first, later]; rfl⟩

theorem Running.fetch (running : Running k c n) {text : BitVec 32 → Option (EntryInstr × Nat)}
    {pa : BitVec 32} {instr : EntryInstr} {size : Nat} (found : text pa = some (instr, size))
    (positive : 0 < size)
    (mapped : ∀ i < size, c.space false (c.eip + BitVec.ofNat 32 i) = some (pa + BitVec.ofNat 32 i))
    (avoids : ∀ i < size,
      ¬entryPages k.entryPgdir k.entryPgtable (frame (pa + BitVec.ofNat 32 i))) :
    ∃ m', c.fetch text =
        some (instr, { c with eip := c.eip + BitVec.ofNat 32 size, mem := m' }) ∧
      Running k { c with eip := c.eip + BitVec.ofNat 32 size, mem := m' } n := by
  have start : c.translate c.eip = some pa := by
    have first := mapped 0 positive
    rw [BitVec.add_zero, BitVec.add_zero] at first
    rw [running.translate, first]
  have whole (i : Nat) (inside : i < size) :
      c.translate (c.eip + BitVec.ofNat 32 i) = some (pa + BitVec.ofNat 32 i) :=
    (running.translate _).trans (mapped i inside)
  obtain ⟨out, flat⟩ := @flat_reads c.space
    ((List.range size).map fun i => c.eip + BitVec.ofNat 32 i) (by
      intro la member
      obtain ⟨i, inside, rfl⟩ := List.mem_map.mp member
      exact ⟨_, mapped i (List.mem_range.mp inside)⟩) n
  obtain ⟨m', ran, running'⟩ := running.run flat (by
    intro access member pa' here
    simp only [List.map_map, List.mem_map, List.mem_range, Function.comp_apply] at member
    obtain ⟨i, inside, rfl⟩ := member
    obtain rfl := Option.some.inj ((mapped i inside).symm.trans here)
    exact avoids i inside)
  rw [List.map_map] at ran
  refine ⟨m', ?_, ⟨running'.off, running'.on⟩⟩
  rw [EntryCpu.fetch, start]
  simp only [Option.bind_eq_bind, Option.bind_some, found]
  rw [if_pos whole]
  exact congrArg (Option.bind · _) ran

end Running

/-! ### The text -/

theorem textSize_cons (size : EntryInstr → Nat) (instr : EntryInstr) (text : List EntryInstr)
    (j : Nat) : textSize size (instr :: text) (j + 1) = size instr + textSize size text j := by
  rw [textSize, textSize, List.take_succ_cons, List.map_cons, List.sum_cons]

theorem textSize_succ (size : EntryInstr → Nat) {text : List EntryInstr} {j : Nat}
    (inside : j < text.length) :
    textSize size text (j + 1) = textSize size text j + size text[j] := by
  rw [textSize, textSize, List.take_succ_eq_append_getElem inside, List.map_append, List.sum_append,
    List.map_cons, List.map_nil, List.sum_cons, List.sum_nil, Nat.add_zero]

theorem textSize_mono (size : EntryInstr → Nat) (text : List EntryInstr) {i j : Nat} (le : i ≤ j) :
    textSize size text i ≤ textSize size text j := by
  induction j with
  | zero =>
    obtain rfl := Nat.le_zero.mp le
    exact Nat.le_refl _
  | succ j ih =>
    rcases Nat.lt_or_ge i (j + 1) with before | same
    · refine Nat.le_trans (ih (by omega)) ?_
      by_cases inside : j < text.length
      · rw [textSize_succ size inside]
        exact Nat.le_add_right _ _
      · rw [textSize, textSize, List.take_of_length_le (by omega),
          List.take_of_length_le (by omega)]
    · obtain rfl : i = j + 1 := by omega
      exact Nat.le_refl _

/-- Each instruction is where those before it end. -/
theorem textAt_get (size : EntryInstr → Nat) {text : List EntryInstr}
    (positive : ∀ instr ∈ text, 0 < size instr) {j : Nat} (inside : j < text.length)
    (small : textSize size text j < 4294967296) (base : BitVec 32) :
    textAt size base text (base + BitVec.ofNat 32 (textSize size text j)) =
      some (text[j], size text[j]) := by
  induction text generalizing base j with
  | nil => cases inside
  | cons instr rest ih =>
    rw [textAt]
    cases j with
    | zero => rw [if_pos (by simp [textSize])]; rfl
    | succ j =>
      have first := positive instr (by simp)
      rw [textSize_cons] at small ⊢
      have later : base + BitVec.ofNat 32 (size instr + textSize size rest j) ≠ base := by bv_omega
      have place : base + BitVec.ofNat 32 (size instr + textSize size rest j) =
          base + BitVec.ofNat 32 (size instr) + BitVec.ofNat 32 (textSize size rest j) := by
        rw [BitVec.ofNat_add, BitVec.add_assoc]
      rw [if_neg later, place, ih (fun i member => positive i (by simp [member]))
        (by simpa using inside) (by omega)]
      rfl

/-- A byte that is mapped for the kernel, and is not in a table. -/
def Usable (k : EntrySymbols) (la : BitVec 32) : Prop :=
  InKernel la ∧ ¬entryPages k.entryPgdir k.entryPgtable (frame (RELOC la))

instance (k : EntrySymbols) (la : BitVec 32) : Decidable (Usable k la) :=
  inferInstanceAs (Decidable (_ ∧ _))

/-- A kernel as it is linked. -/
structure EntryLayout (k : EntrySymbols) (size : EntryInstr → Nat) : Prop where
  label : k.relocated = instrAt size (entryText k) k.entry 8
  sizes : ∀ instr ∈ entryText k, 0 < size instr
  small : textSize size (entryText k) 11 < PTSIZE
  text : ∀ i < textSize size (entryText k) 11, Usable k (k.entry + BitVec.ofNat 32 i)
  stack : ∀ i < 4, Usable k (k.bootstacktop - 4 + BitVec.ofNat 32 i)
  /-- The tables are not in the first page, where the firmware keeps its data. -/
  firmware : ¬entryPages k.entryPgdir k.entryPgtable 0

section Layout

variable {k : EntrySymbols} {size : EntryInstr → Nat}

/-- The same byte at its low and at its high address. -/
theorem Usable.spaces {la : BitVec 32} (usable : Usable k la) :
    entrySpace false (RELOC la) = some (RELOC la) ∧
      ∀ write, entrySpace write la = some (RELOC la) := by
  have base : KERNBASE.toNat = 4026531840 := by decide
  have inside := usable.1
  have above := inside.1
  have below := inside.2
  have place : (RELOC la).toNat = la.toNat - KERNBASE.toNat :=
    BitVec.toNat_sub_of_le (BitVec.le_def.mpr above)
  refine ⟨?_, fun write => entrySpace_kernel inside write⟩
  rw [entrySpace, if_pos (by omega)]
  rfl

theorem reloc_add (a b : BitVec 32) : RELOC (a + b) = RELOC a + b := by
  rw [RELOC, RELOC]
  bv_omega

/-- The instruction `j`, at its physical address or, with paging, at its link address. -/
theorem Running.fetchAt {c : EntryCpu} {n : Mem} (running : Running k c n)
    (layout : EntryLayout k size) {j : Nat} {base : BitVec 32}
    (low : base = RELOC k.entry ∨ c.paging = true ∧ base = k.entry)
    (here : c.eip = instrAt size (entryText k) base j) {instr : EntryInstr}
    (known : (entryText k)[j]? = some instr) :
    ∃ m', c.fetch (textAt size (RELOC k.entry) (entryText k)) =
        some (instr, { c with eip := instrAt size (entryText k) base (j + 1), mem := m' }) ∧
      Running k { c with eip := instrAt size (entryText k) base (j + 1), mem := m' } n := by
  have length : (entryText k).length = 11 := rfl
  have small := layout.small
  have pages : PTSIZE = 4194304 := rfl
  obtain ⟨inside, rfl⟩ := List.getElem?_eq_some_iff.mp known
  have next := textSize_succ size inside
  have last := textSize_mono size (entryText k) (show j + 1 ≤ 11 by omega)
  have found := textAt_get size layout.sizes inside (by omega) (RELOC k.entry)
  have after : instrAt size (entryText k) base (j + 1) =
      c.eip + BitVec.ofNat 32 (size (entryText k)[j]) := by
    rw [here, instrAt, instrAt, next, BitVec.ofNat_add, BitVec.add_assoc]
  rw [instrAt] at here
  generalize textSize size (entryText k) j = o at *
  have bytes (i : Nat) (within : i < size (entryText k)[j]) :
      Usable k (k.entry + BitVec.ofNat 32 o + BitVec.ofNat 32 i) := by
    rw [BitVec.add_assoc, ← BitVec.ofNat_add]
    exact layout.text _ (by omega)
  have place (i : Nat) : RELOC (k.entry + BitVec.ofNat 32 o + BitVec.ofNat 32 i) =
      RELOC k.entry + BitVec.ofNat 32 o + BitVec.ofNat 32 i := by
    rw [reloc_add, reloc_add]
  rw [after]
  exact running.fetch found (layout.sizes _ (List.getElem_mem _))
    (by
      intro i within
      obtain ⟨physical, high⟩ := (bytes i within).spaces
      rw [place] at physical high
      rcases low with rfl | ⟨on, rfl⟩
      · rw [here, EntryCpu.space]
        split
        · exact physical
        · rfl
      · rw [here, EntryCpu.space, on]
        exact high false)
    (by
      intro i within
      rw [← place]
      exact (bytes i within).2)

/-! ### The run -/

/-- The tables are what they were where their bytes are. -/
theorem EntryTables.congr {m m' : Mem} {pgdir pgtable : BitVec 32}
    (tables : EntryTables m pgdir pgtable)
    (same : ∀ a, entryPages pgdir pgtable (frame a) → m' a = m a) :
    EntryTables m' pgdir pgtable := by
  have word {base : BitVec 32} (aligned : frame base = base) (table : entryPages pgdir pgtable base)
      {i : Nat} (inside : i < 1024) : load32 m' (base + BitVec.ofNat 32 (4 * i)) =
        load32 m (base + BitVec.ofNat 32 (4 * i)) := by
    have index : (BitVec.ofNat 32 i).toNat = i := by
      rw [BitVec.toNat_ofNat]
      omega
    obtain ⟨-, page, word⟩ := entry_place aligned (i := BitVec.ofNat 32 i) (by omega)
    rw [index_place, index] at page word
    exact load32_page word fun a here => same a (by rw [here, page]; exact table)
  refine ⟨tables.pgdirPage, tables.pgtablePage, fun i inside => ?_, fun i inside => ?_⟩
  · rw [word (reloc_page tables.pgdirPage) (.inl rfl) inside, tables.pgdirHeld i inside]
  · rw [word (reloc_page tables.pgtablePage) (.inr rfl) inside, tables.pgtableHeld i inside]

theorem flat_storeWord {space : Bool → BitVec 32 → Option (BitVec 32)} {a pa : BitVec 32}
    (mapped : ∀ i < 4, space true (a + BitVec.ofNat 32 i) = some (pa + BitVec.ofNat 32 i))
    (v : BitVec 32) (n : Mem) :
    runAccesses (Access.flat space) (EntryCpu.storeWord a v) n = some ([], store32 n pa v) := by
  have byte (i : Nat) (inside : i < 4) (m : Mem) (b : BitVec 8) :
      Access.flat space m (.write (a + BitVec.ofNat 32 i) b) =
        some ([], Function.update m (pa + BitVec.ofNat 32 i) b) := by
    rw [Access.flat]
    exact congrArg (Option.map _) (mapped i inside)
  have bytes : EntryCpu.storeWord a v =
      [.write (a + BitVec.ofNat 32 0) (v.extractLsb' (8 * 0) 8),
        .write (a + BitVec.ofNat 32 1) (v.extractLsb' (8 * 1) 8),
        .write (a + BitVec.ofNat 32 2) (v.extractLsb' (8 * 2) 8),
        .write (a + BitVec.ofNat 32 3) (v.extractLsb' (8 * 3) 8)] := rfl
  rw [bytes, runAccesses_cons (byte 0 (by decide) n _), runAccesses_cons (byte 1 (by decide) _ _),
    runAccesses_cons (byte 2 (by decide) _ _), runAccesses_cons (byte 3 (by decide) _ _)]
  refine congrArg (fun m => some (([] : List (BitVec 8)), m)) (funext fun b => ?_)
  simp only [Function.update_apply, store32]
  by_cases inside : (b - pa).toNat < 4
  · rw [if_pos inside]
    have place : b = pa + BitVec.ofNat 32 (b - pa).toNat := by bv_omega
    generalize (b - pa).toNat = i at *
    subst place
    interval_cases i <;> simp
  · rw [if_neg inside, if_neg (by bv_omega), if_neg (by bv_omega), if_neg (by bv_omega),
      if_neg (by bv_omega)]

theorem steps_succ {text : BitVec 32 → Option (EntryInstr × Nat)} {c c₁ c₂ : EntryCpu}
    {instr : EntryInstr} (fetched : c.fetch text = some (instr, c₁))
    (executed : c₁.exec instr = some c₂) (n : Nat) :
    EntryCpu.steps text (n + 1) c = EntryCpu.steps text n c₂ := by
  rw [EntryCpu.steps, EntryCpu.step, fetched]
  simp only [Option.bind_eq_bind, Option.bind_some, executed]

/-- Without paging memory is read as it is. -/
theorem turn_off {c c' : EntryCpu} (layout : EntryLayout k size) (off : c.paging = false) {j : Nat}
    (here : c.eip = instrAt size (entryText k) (RELOC k.entry) j) {instr : EntryInstr}
    (known : (entryText k)[j]? = some instr)
    (executed : EntryCpu.exec { c with eip := instrAt size (entryText k) (RELOC k.entry) (j + 1) }
      instr = some c') (left : Nat) :
    EntryCpu.steps (textAt size (RELOC k.entry) (entryText k)) (left + 1) c =
      EntryCpu.steps (textAt size (RELOC k.entry) (entryText k)) left c' := by
  have running : Running k c c.mem :=
    ⟨fun _ => rfl, fun on => absurd (off.symm.trans on) (by decide)⟩
  obtain ⟨m', fetched, running'⟩ := running.fetchAt layout (.inl rfl) here known
  obtain rfl : m' = c.mem := running'.off off
  exact steps_succ fetched executed left

/-- With paging an instruction that is not a store does `f` to the registers. -/
theorem turn_on {c : EntryCpu} {n : Mem} (running : Running k c n) (layout : EntryLayout k size)
    {base : BitVec 32} (low : base = RELOC k.entry ∨ c.paging = true ∧ base = k.entry) {j : Nat}
    (here : c.eip = instrAt size (entryText k) base j) {instr : EntryInstr}
    (known : (entryText k)[j]? = some instr) {f : EntryCpu → EntryCpu}
    (executed : ∀ c : EntryCpu, c.exec instr = some (f c)) (left : Nat) :
    ∃ m', EntryCpu.steps (textAt size (RELOC k.entry) (entryText k)) (left + 1) c =
        EntryCpu.steps (textAt size (RELOC k.entry) (entryText k)) left
          (f { c with eip := instrAt size (entryText k) base (j + 1), mem := m' }) ∧
      Running k { c with eip := instrAt size (entryText k) base (j + 1), mem := m' } n := by
  obtain ⟨m', fetched, running'⟩ := running.fetchAt layout low here known
  exact ⟨m', steps_succ fetched (executed _) left, running'⟩

/-- The call, which stores its return address on the stack -/
theorem call_on {c : EntryCpu} {n : Mem} (running : Running k c n) (layout : EntryLayout k size)
    (on : c.paging = true) (here : c.eip = instrAt size (entryText k) k.entry 10)
    (top : c.esp = k.bootstacktop) :
    ∃ m', EntryCpu.steps (textAt size (RELOC k.entry) (entryText k)) 1 c =
        some { c with eip := k.i386Init, esp := k.bootstacktop - 4, mem := m' } ∧
      Running k { c with eip := k.i386Init, esp := k.bootstacktop - 4, mem := m' }
        (store32 n (RELOC (k.bootstacktop - 4)) (instrAt size (entryText k) k.entry 11)) := by
  obtain ⟨m₁, fetched, running₁⟩ := running.fetchAt layout (.inr ⟨on, rfl⟩) here rfl
  have space : EntryCpu.space { c with
      eip := instrAt size (entryText k) k.entry 11, mem := m₁ } = entrySpace :=
    EntryCpu.space_on on
  have stack (i : Nat) (inside : i < 4) (write : Bool) :
      entrySpace write (k.bootstacktop - 4 + BitVec.ofNat 32 i) =
        some (RELOC (k.bootstacktop - 4) + BitVec.ofNat 32 i) := by
    rw [(layout.stack i inside).spaces.2, reloc_add]
  have flat := flat_storeWord (fun i inside => stack i inside true)
    (instrAt size (entryText k) k.entry 11) n
  rw [← space] at flat
  obtain ⟨m₂, stored, running₂⟩ := running₁.run flat (by
    intro access member pa mapped
    rw [space] at mapped
    obtain ⟨i, inside, rfl⟩ := List.mem_map.mp member
    have inside := List.mem_range.mp inside
    obtain rfl := Option.some.inj ((stack i inside true).symm.trans mapped)
    rw [← reloc_add]
    exact (layout.stack i inside).2)
  have executed : EntryCpu.exec { c with
      eip := instrAt size (entryText k) k.entry 11, mem := m₁ } (.call k.i386Init) =
      some { c with eip := k.i386Init, esp := k.bootstacktop - 4, mem := m₂ } := by
    rw [EntryCpu.exec]
    simp only [top]
    exact congrArg (Option.bind · _) stored
  exact ⟨m₂, steps_succ fetched executed 0, running₂.off, running₂.on⟩

/-- When the instruction that turns paging on has been executed -/
def pagingOn (k : EntrySymbols) (size : EntryInstr → Nat) (c : EntryCpu) : EntryCpu where
  eip := instrAt size (entryText k) (RELOC k.entry) 6
  eax := c.cr0 ||| (CR0_PE ||| CR0_PG ||| CR0_WP)
  ebp := c.ebp
  esp := c.esp
  cr0 := c.cr0 ||| (CR0_PE ||| CR0_PG ||| CR0_WP)
  cr3 := RELOC k.entryPgdir
  mem := store16 c.mem 0x472 0x1234

theorem steps_pagingOn {c : EntryCpu} (layout : EntryLayout k size)
    (here : c.eip = RELOC k.entry) (off : c.paging = false) :
    EntryCpu.steps (textAt size (RELOC k.entry) (entryText k)) 11 c =
      EntryCpu.steps (textAt size (RELOC k.entry) (entryText k)) 5 (pagingOn k size c) := by
  have start : c.eip = instrAt size (entryText k) (RELOC k.entry) 0 := by
    rw [here, instrAt]
    simp [textSize]
  have warm : EntryCpu.exec { c with eip := instrAt size (entryText k) (RELOC k.entry) 1 }
      .movwWarm = some { c with
        eip := instrAt size (entryText k) (RELOC k.entry) 1
        mem := store16 c.mem 0x472 0x1234 } := by
    have direct : EntryCpu.run { c with eip := instrAt size (entryText k) (RELOC k.entry) 1 }
        [.write 0x472 0x34, .write 0x473 0x12] = some ([], store16 c.mem 0x472 0x1234) := by
      rw [EntryCpu.run, show EntryCpu.paging { c with
        eip := instrAt size (entryText k) (RELOC k.entry) 1 } = false from off]
      rfl
    rw [EntryCpu.exec, direct]
    rfl
  rw [turn_off layout off start rfl warm, turn_off layout (by exact off) rfl rfl rfl,
    turn_off layout (by exact off) rfl rfl rfl, turn_off layout (by exact off) rfl rfl rfl,
    turn_off layout (by exact off) rfl rfl rfl, turn_off layout (by exact off) rfl rfl rfl]
  rfl

theorem pagingOn_paging (k : EntrySymbols) (size : EntryInstr → Nat) (c : EntryCpu) :
    (pagingOn k size c).paging = true := by
  have bit : (c.cr0 ||| (CR0_PE ||| CR0_PG ||| CR0_WP)).getLsbD 31 = true := by
    rw [BitVec.getLsbD_or]
    exact Bool.or_eq_true_iff.mpr (.inr (by decide))
  refine decide_eq_true fun zero => ?_
  have masked := congrArg (BitVec.getLsbD · 31) zero
  rw [BitVec.getLsbD_and] at masked
  exact absurd ((congrArg (· && _) bit).symm.trans masked) (by decide)

theorem pagingOn_running {c : EntryCpu} (tables : EntryTables c.mem k.entryPgdir k.entryPgtable)
    (layout : EntryLayout k size) :
    Running k (pagingOn k size c) (store16 c.mem 0x472 0x1234) where
  off off := absurd (off.symm.trans (pagingOn_paging k size c)) (by decide)
  on _ := by
    have tables' : EntryTables (store16 c.mem 0x472 0x1234) k.entryPgdir k.entryPgtable := by
      refine tables.congr fun a page => store16_frame _ _ ?_ ?_ <;>
        · rintro rfl
          exact layout.firmware page
    refine ⟨tables'.backs, rfl, fun zero => ?_⟩
    have bit : (c.cr0 ||| (CR0_PE ||| CR0_PG ||| CR0_WP)).getLsbD 16 = true := by
      rw [BitVec.getLsbD_or]
      exact Bool.or_eq_true_iff.mpr (.inr (by decide))
    have masked := congrArg (BitVec.getLsbD · 16) zero
    rw [BitVec.getLsbD_and] at masked
    exact absurd ((congrArg (· && _) bit).symm.trans masked) (by decide)

theorem steps_entry {c : EntryCpu} (tables : EntryTables c.mem k.entryPgdir k.entryPgtable)
    (layout : EntryLayout k size) (here : c.eip = RELOC k.entry) (off : c.paging = false) :
    ∃ m', EntryCpu.steps (textAt size (RELOC k.entry) (entryText k)) 11 c =
        some { pagingOn k size c with
          eip := k.i386Init, eax := k.relocated, ebp := 0, esp := k.bootstacktop - 4, mem := m' } ∧
      Running k { pagingOn k size c with
          eip := k.i386Init, eax := k.relocated, ebp := 0, esp := k.bootstacktop - 4, mem := m' }
        (store32 (store16 c.mem 0x472 0x1234) (RELOC (k.bootstacktop - 4))
          (instrAt size (entryText k) k.entry 11)) := by
  have on := pagingOn_paging k size c
  rw [steps_pagingOn layout here off]
  -- the code runs on at low addresses, up to the jump
  obtain ⟨m₇, run₇, running₇⟩ := turn_on (pagingOn_running tables layout) layout (.inl rfl) rfl rfl
    (f := fun c => { c with eax := k.relocated }) (fun _ => rfl) 4
  obtain ⟨m₈, run₈, running₈⟩ := turn_on (c := { pagingOn k size c with
      eip := instrAt size (entryText k) (RELOC k.entry) 7, eax := k.relocated, mem := m₇ })
    ⟨running₇.off, running₇.on⟩ layout (.inl rfl) rfl rfl
    (f := fun c => { c with eip := c.eax }) (fun _ => rfl) 3
  -- relocated
  obtain ⟨m₉, run₉, running₉⟩ := turn_on (c := { pagingOn k size c with
      eip := k.relocated, eax := k.relocated, mem := m₈ })
    ⟨running₈.off, running₈.on⟩ layout (.inr ⟨on, rfl⟩) layout.label rfl
    (f := fun c => { c with ebp := 0 }) (fun _ => rfl) 2
  obtain ⟨m₁₀, run₁₀, running₁₀⟩ := turn_on (c := { pagingOn k size c with
      eip := instrAt size (entryText k) k.entry 9, eax := k.relocated, ebp := 0, mem := m₉ })
    ⟨running₉.off, running₉.on⟩ layout (.inr ⟨on, rfl⟩) rfl rfl
    (f := fun c => { c with esp := k.bootstacktop }) (fun _ => rfl) 1
  obtain ⟨m₁₁, run₁₁, running₁₁⟩ := call_on (c := { pagingOn k size c with
      eip := instrAt size (entryText k) k.entry 10, eax := k.relocated, ebp := 0,
      esp := k.bootstacktop, mem := m₁₀ })
    ⟨running₁₀.off, running₁₀.on⟩ layout on rfl rfl
  exact ⟨m₁₁, run₇.trans (run₈.trans (run₉.trans (run₁₀.trans run₁₁))), running₁₁⟩

/-- What is set up when `i386_init` is called, with the flat memory `n` behind the tables. Memory
is `n` but for the marks that the processor has set in the tables. -/
structure InitCalled (k : EntrySymbols) (c c' : EntryCpu) (n : Mem) : Prop where
  eip : c'.eip = k.i386Init
  ebp : c'.ebp = 0
  esp : c'.esp = k.bootstacktop - 4
  cr0 : c'.cr0 = c.cr0 ||| (CR0_PE ||| CR0_PG ||| CR0_WP)
  paging : c'.paging = true
  running : Running k c' n
  bytes : ∀ a, ¬entryPages k.entryPgdir k.entryPgtable (frame a) → c'.mem a = n a
  marks : SameTables (entryPages k.entryPgdir k.entryPgtable) n c'.mem

/-- From the entry point, with the tables in memory, `i386_init` is called at its link address, on
the boot stack, with paging on and nothing else in memory changed. -/
theorem entry_calls_init {c : EntryCpu} (tables : EntryTables c.mem k.entryPgdir k.entryPgtable)
    (layout : EntryLayout k size) (here : c.eip = RELOC k.entry) (off : c.paging = false) :
    ∃ c', EntryCpu.steps (textAt size (RELOC k.entry) (entryText k)) 11 c = some c' ∧
      InitCalled k c c' (store32 (store16 c.mem 0x472 0x1234) (RELOC (k.bootstacktop - 4))
        (instrAt size (entryText k) k.entry 11)) := by
  obtain ⟨m', run, running⟩ := steps_entry tables layout here off
  have paging := pagingOn_paging k size c
  obtain ⟨backs, -⟩ := running.on paging
  exact ⟨_, run, rfl, rfl, rfl, rfl, paging, running, backs.bytes, backs.marks⟩

end Layout

/-! ### A kernel that is linked at 1MB -/

/-- The sizes in 32-bit code -/
def instrSize : EntryInstr → Nat
  | .movwWarm => 9
  | .movlEaxCr3 | .movlCr0Eax | .movlEaxCr0 => 3
  | .jmpEax => 2
  | .movlEax _ | .orlEax _ | .movlEbp _ | .movlEsp _ | .call _ => 5

/-- The tables are those of `smallTables`. -/
def smallEntry : EntrySymbols where
  entry := 0xF010000C
  relocated := 0xF010002F
  entryPgdir := 0xF0102000
  entryPgtable := 0xF0103000
  bootstacktop := 0xF0110000
  i386Init := 0xF0100094

theorem smallEntry_layout : EntryLayout smallEntry instrSize where
  label := by decide
  sizes := by
    intro instr member
    cases instr <;> exact Nat.succ_pos _
  small := by decide
  text := by decide +kernel
  stack := by decide +kernel
  firmware := by decide

theorem entry_calls_init_small :
    ∃ c', EntryCpu.steps (textAt instrSize (RELOC 0xF010000C) (entryText smallEntry)) 11
        { eip := 0x10000C, eax := 0, ebp := 0x7BF8, esp := 0x7BDC, cr0 := 1, cr3 := 0,
          mem := smallTables } = some c' ∧
      InitCalled smallEntry
        { eip := 0x10000C, eax := 0, ebp := 0x7BF8, esp := 0x7BDC, cr0 := 1, cr3 := 0,
          mem := smallTables } c'
        (store32 (store16 smallTables 0x472 0x1234) (RELOC (0xF0110000 - 4))
          (instrAt instrSize (entryText smallEntry) 0xF010000C 11)) :=
  entry_calls_init smallTables_entry smallEntry_layout (by decide) (by decide)

end Jos
