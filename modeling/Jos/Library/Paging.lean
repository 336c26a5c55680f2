import Jos.Library.Memory
import Mathlib.Tactic.IntervalCases

/-!
# Paging with two levels

A directory and its tables lie in the memory that they map, each in a page of its own, and the
processor sets bits in their entries as it uses them. `run_refines` takes a run of accesses
through the tables to one on flat memory, as long as no access reaches a table.
-/
namespace Library

/-! ### Entries -/

/-- The page that an address or an entry belongs to. -/
def frame (a : BitVec 32) : BitVec 32 := a &&& ~~~0xFFF#32

def accessed : BitVec 32 := 0x20
def dirty : BitVec 32 := 0x40

/-- An entry without the bits that the processor sets. -/
def unmarked (e : BitVec 32) : BitVec 32 := e &&& ~~~0x60#32

/-- The entry is present, and writable if that is asked for. -/
def permits (e : BitVec 32) (write : Bool) : Bool := e.getLsbD 0 && (!write || e.getLsbD 1)

def pdeAt (dir la : BitVec 32) : BitVec 32 := dir + (la >>> 22) * 4

def pteAt (m : Mem) (dir la : BitVec 32) : BitVec 32 :=
  frame (load32 m (pdeAt dir la)) + (la >>> 12 &&& 0x3FF#32) * 4

/-- The physical address of a linear one, unless the access faults. -/
def target (m : Mem) (dir : BitVec 32) (write : Bool) (la : BitVec 32) : Option (BitVec 32) :=
  if permits (load32 m (pdeAt dir la)) write && permits (load32 m (pteAt m dir la)) write then
    some (frame (load32 m (pteAt m dir la)) ||| (la &&& 0xFFF#32))
  else none

/-- The processor marks the entry at `a`. -/
def setBits (m : Mem) (a bits : BitVec 32) : Mem := store32 m a (load32 m a ||| bits)

/-- The two entries that an access has used are marked. -/
def mark (m : Mem) (dir : BitVec 32) (write : Bool) (la : BitVec 32) : Mem :=
  setBits (setBits m (pdeAt dir la) accessed) (pteAt m dir la)
    (if write then accessed ||| dirty else accessed)

/-! ### Addresses -/

theorem frame_toNat (a : BitVec 32) : (frame a).toNat = a.toNat - a.toNat % 4096 := by
  have shifted : frame a = (a >>> 12) <<< 12 := by
    apply BitVec.eq_of_getLsbD_eq
    intro i inside
    interval_cases i <;> simp [frame]
  have bound := a.isLt
  rw [shifted, BitVec.toNat_shiftLeft, BitVec.toNat_ushiftRight, Nat.shiftLeft_eq,
    Nat.shiftRight_eq_div_pow]
  omega

theorem frame_eq_iff {a b : BitVec 32} : frame a = frame b ↔ a.toNat / 4096 = b.toNat / 4096 := by
  rw [← BitVec.toNat_inj, frame_toNat, frame_toNat]
  omega

theorem frame_frame (a : BitVec 32) : frame (frame a) = frame a := by
  rw [frame_eq_iff, frame_toNat]
  omega

/-- The place of an entry in its page. -/
theorem entry_place {base i : BitVec 32} (aligned : frame base = base) (inside : i.toNat < 1024) :
    (base + i * 4).toNat = base.toNat + 4 * i.toNat ∧ frame (base + i * 4) = base ∧
      (base + i * 4).toNat % 4 = 0 := by
  have whole := frame_toNat base
  rw [aligned] at whole
  have bound := base.isLt
  have place : (base + i * 4).toNat = base.toNat + 4 * i.toNat := by bv_omega
  refine ⟨place, ?_, by omega⟩
  rw [← aligned, frame_eq_iff, aligned, place]
  omega

theorem dirIndex_lt (la : BitVec 32) : (la >>> 22).toNat < 1024 := by
  rw [BitVec.toNat_ushiftRight, Nat.shiftRight_eq_div_pow]
  have bound := la.isLt
  omega

theorem tableIndex_lt (la : BitVec 32) : (la >>> 12 &&& 0x3FF#32).toNat < 1024 := by
  rw [BitVec.toNat_and]
  exact Nat.lt_of_le_of_lt Nat.and_le_right (by decide)

/-- The bytes of an aligned word lie in one page. -/
theorem word_frame {a : BitVec 32} (aligned : a.toNat % 4 = 0) {i : BitVec 32}
    (inside : i.toNat < 4) : frame (a + i) = frame a := by
  rw [frame_eq_iff]
  have bound := a.isLt
  have place : (a + i).toNat = a.toNat + i.toNat := by bv_omega
  omega

theorem load32_page {m m' : Mem} {a : BitVec 32} (aligned : a.toNat % 4 = 0)
    (same : ∀ c, frame c = frame a → m' c = m c) : load32 m' a = load32 m a := by
  rw [load32, load32, same a rfl, same _ (word_frame aligned (i := 1) (by decide)),
    same _ (word_frame aligned (i := 2) (by decide)),
    same _ (word_frame aligned (i := 3) (by decide))]

theorem load32_store32_of_ne (m : Mem) {a b : BitVec 32} (v : BitVec 32) (aligned : a.toNat % 4 = 0)
    (aligned' : b.toNat % 4 = 0) (other : b ≠ a) : load32 (store32 m a v) b = load32 m b := by
  have apart : ∀ i : BitVec 32, i.toNat < 4 → store32 m a v (b + i) = m (b + i) := by
    intro i inside
    refine if_neg ?_
    have bound := a.isLt
    have bound' := b.isLt
    bv_omega
  have first := apart 0#32 (by decide)
  rw [BitVec.add_zero] at first
  rw [load32, load32, first, apart 1 (by decide), apart 2 (by decide), apart 3 (by decide)]

/-! ### Tables that stay the same but for their marks -/

/-- `T` holds of the pages of a directory and of its tables. -/
structure Tables (m : Mem) (dir : BitVec 32) (T : BitVec 32 → Prop) : Prop where
  aligned : frame dir = dir
  root : T dir
  tables : ∀ la, permits (load32 m (pdeAt dir la)) false = true →
    T (frame (load32 m (pdeAt dir la)))

/-- The entries in the pages of `T` differ in their marks only. -/
def SameTables (T : BitVec 32 → Prop) (m m' : Mem) : Prop :=
  ∀ a, a.toNat % 4 = 0 → T (frame a) → unmarked (load32 m' a) = unmarked (load32 m a)

theorem permits_unmarked {e e' : BitVec 32} (same : unmarked e' = unmarked e) (write : Bool) :
    permits e' write = permits e write := by
  have low : ∀ i, i < 2 → e'.getLsbD i = e.getLsbD i := by
    intro i inside
    have bit := congrArg (·.getLsbD i) same
    interval_cases i <;> simpa [unmarked] using bit
  rw [permits, permits, low 0 (by decide), low 1 (by decide)]

theorem frame_unmarked {e e' : BitVec 32} (same : unmarked e' = unmarked e) :
    frame e' = frame e := by
  have masked : ∀ e, frame (unmarked e) = frame e := by
    intro e
    apply BitVec.eq_of_getLsbD_eq
    intro i inside
    interval_cases i <;> simp [frame, unmarked]
  rw [← masked e', same, masked e]

theorem permits_read {e : BitVec 32} {write : Bool} (permitted : permits e write = true) :
    permits e false = true := by
  rw [permits, Bool.and_eq_true] at permitted
  simp [permits, permitted.1]

section Marks

variable {m m' m'' : Mem} {dir : BitVec 32} {T : BitVec 32 → Prop}

theorem SameTables.refl (T : BitVec 32 → Prop) (m : Mem) : SameTables T m m := fun _ _ _ => rfl

theorem SameTables.trans (first : SameTables T m m') (second : SameTables T m' m'') :
    SameTables T m m'' :=
  fun a aligned table => (second a aligned table).trans (first a aligned table)

theorem Tables.pde (tables : Tables m dir T) (la : BitVec 32) :
    (pdeAt dir la).toNat % 4 = 0 ∧ frame (pdeAt dir la) = dir := by
  obtain ⟨-, page, word⟩ := entry_place tables.aligned (dirIndex_lt la)
  exact ⟨word, page⟩

theorem pteAt_place (m : Mem) (dir la : BitVec 32) :
    (pteAt m dir la).toNat % 4 = 0 ∧
      frame (pteAt m dir la) = frame (load32 m (pdeAt dir la)) := by
  obtain ⟨-, page, word⟩ := entry_place (frame_frame (load32 m (pdeAt dir la))) (tableIndex_lt la)
  exact ⟨word, page⟩

theorem Tables.pde_same (tables : Tables m dir T) (same : SameTables T m m') (la : BitVec 32) :
    unmarked (load32 m' (pdeAt dir la)) = unmarked (load32 m (pdeAt dir la)) := by
  obtain ⟨word, page⟩ := tables.pde la
  exact same _ word (by rw [page]; exact tables.root)

theorem Tables.pteAt_same (tables : Tables m dir T) (same : SameTables T m m') (la : BitVec 32) :
    pteAt m' dir la = pteAt m dir la := by
  rw [pteAt, pteAt, frame_unmarked (tables.pde_same same la)]

theorem Tables.same (tables : Tables m dir T) (same : SameTables T m m') : Tables m' dir T where
  aligned := tables.aligned
  root := tables.root
  tables := by
    intro la present
    rw [frame_unmarked (tables.pde_same same la)]
    rw [permits_unmarked (tables.pde_same same la)] at present
    exact tables.tables la present

/-- The marks have no part in the translation. -/
theorem Tables.target_same (tables : Tables m dir T) (same : SameTables T m m') (write : Bool)
    (la : BitVec 32) : target m' dir write la = target m dir write la := by
  have pde := permits_unmarked (tables.pde_same same la) write
  unfold target
  rw [pde, tables.pteAt_same same]
  by_cases permitted : permits (load32 m (pdeAt dir la)) write = true
  · obtain ⟨word, page⟩ := pteAt_place m dir la
    have entry := same _ word (by rw [page]; exact tables.tables la (permits_read permitted))
    rw [permits_unmarked entry, frame_unmarked entry]
  · rw [Bool.not_eq_true] at permitted
    rw [permitted]
    rfl

theorem unmarked_or {e bits : BitVec 32} (marks : unmarked bits = 0) :
    unmarked (e ||| bits) = unmarked e := by
  have split : unmarked (e ||| bits) = unmarked e ||| unmarked bits := by
    ext i inside
    simp only [unmarked, BitVec.getElem_and, BitVec.getElem_or, Bool.and_or_distrib_right]
  rw [split, marks]
  exact BitVec.or_zero

/-- A mark on an entry in a page of `T`. -/
theorem setBits_same {a bits : BitVec 32} (word : a.toNat % 4 = 0) (page : T (frame a))
    (marks : unmarked bits = 0) (m : Mem) :
    SameTables T m (setBits m a bits) ∧ ∀ c, ¬T (frame c) → setBits m a bits c = m c := by
  constructor
  · intro b word' _
    by_cases here : b = a
    · rw [here, setBits, load32_store32, unmarked_or marks]
    · rw [setBits, load32_store32_of_ne m _ word word' here]
  · intro c outside
    refine if_neg fun inside => outside ?_
    have place : c = a + (c - a) := by bv_omega
    rw [place, word_frame word inside]
    exact page

theorem Tables.mark_same (tables : Tables m dir T) {write : Bool} {la pa : BitVec 32}
    (mapped : target m dir write la = some pa) :
    SameTables T m (mark m dir write la) ∧ ∀ c, ¬T (frame c) → mark m dir write la c = m c := by
  have permitted : permits (load32 m (pdeAt dir la)) write = true := by
    by_contra refused
    rw [target, Bool.not_eq_true _ |>.mp refused] at mapped
    cases mapped
  obtain ⟨word, page⟩ := tables.pde la
  obtain ⟨word', page'⟩ := pteAt_place m dir la
  obtain ⟨same, kept⟩ := setBits_same (T := T) word (by rw [page]; exact tables.root)
    (show unmarked accessed = 0 by decide) m
  have marks : unmarked (if write then accessed ||| dirty else accessed) = 0 := by
    cases write <;> decide
  obtain ⟨same', kept'⟩ := setBits_same (T := T) word'
    (by rw [page']; exact tables.tables la (permits_read permitted)) marks
    (setBits m (pdeAt dir la) accessed)
  exact ⟨same.trans same', fun c outside => (kept' c outside).trans (kept c outside)⟩

end Marks

/-! ### Runs -/

/-- An access to a byte at a linear address. -/
inductive Access where
  | read (la : BitVec 32)
  | write (la : BitVec 32) (b : BitVec 8)

namespace Access

def la : Access → BitVec 32
  | read la | write la _ => la

def isWrite : Access → Bool
  | read _ => false
  | write _ _ => true

/-- What the access does at the physical address `pa`: the bytes that it reads, and the memory. -/
def perform (pa : BitVec 32) (m : Mem) : Access → List (BitVec 8) × Mem
  | read _ => ([m pa], m)
  | write _ b => ([], Function.update m pa b)

/-- Through the tables; `none` is a page fault. -/
def paged (dir : BitVec 32) (m : Mem) (access : Access) : Option (List (BitVec 8) × Mem) :=
  (target m dir access.isWrite access.la).map fun pa =>
    access.perform pa (mark m dir access.isWrite access.la)

/-- In an address space that is given. -/
def flat (space : Bool → BitVec 32 → Option (BitVec 32)) (m : Mem) (access : Access) :
    Option (List (BitVec 8) × Mem) :=
  (space access.isWrite access.la).map fun pa => access.perform pa m

end Access

/-- What is read in a run that does not fault, and the memory after it. -/
def runAccesses (step : Mem → Access → Option (List (BitVec 8) × Mem)) :
    List Access → Mem → Option (List (BitVec 8) × Mem)
  | [], m => some ([], m)
  | access :: rest, m => do
    let (out, m) ← step m access
    let (more, m) ← runAccesses step rest m
    some (out ++ more, m)

theorem runAccesses_cons {step : Mem → Access → Option (List (BitVec 8) × Mem)} {m m' : Mem}
    {access : Access} {out : List (BitVec 8)} (first : step m access = some (out, m'))
    (rest : List Access) :
    runAccesses step (access :: rest) m =
      (runAccesses step rest m').map fun more => (out ++ more.1, more.2) := by
  rw [runAccesses, first, Option.bind_eq_bind, Option.bind_some]
  dsimp only
  cases runAccesses step rest m' <;> rfl

section Runs

variable {m n : Mem} {dir : BitVec 32} {T : BitVec 32 → Prop}
  {space : Bool → BitVec 32 → Option (BitVec 32)}

/-- The memory `m` that the processor marks the tables in, next to the memory `n` where it does not:
`m` maps `space`, and the two are equal but for the marks. -/
structure Backs (dir : BitVec 32) (T : BitVec 32 → Prop)
    (space : Bool → BitVec 32 → Option (BitVec 32)) (m n : Mem) : Prop where
  tables : Tables m dir T
  maps : ∀ write la, target m dir write la = space write la
  bytes : ∀ a, ¬T (frame a) → m a = n a
  marks : SameTables T n m

/-- A store outside the tables. -/
theorem update_same {pa : BitVec 32} (outside : ¬T (frame pa)) (m : Mem) (b : BitVec 8) :
    SameTables T m (Function.update m pa b) := by
  intro a word table
  rw [load32_page word]
  intro c page
  have other : c ≠ pa := by
    rintro rfl
    exact outside (page ▸ table)
  rw [Function.update_of_ne other]

/-- One access, which does not reach a table. -/
theorem Backs.access (backs : Backs dir T space m n) (access : Access)
    (avoids : ∀ pa, space access.isWrite access.la = some pa → ¬T (frame pa)) :
    (access.flat space n = none ∧ access.paged dir m = none) ∨
      ∃ out m' n', access.flat space n = some (out, n') ∧ access.paged dir m = some (out, m') ∧
        Backs dir T space m' n' := by
  have maps := backs.maps access.isWrite access.la
  cases mapped : space access.isWrite access.la with
  | none =>
    rw [mapped] at maps
    exact .inl ⟨by rw [Access.flat, mapped]; rfl, by rw [Access.paged, maps]; rfl⟩
  | some pa =>
    rw [mapped] at maps
    have outside := avoids pa mapped
    obtain ⟨same, kept⟩ := backs.tables.mark_same maps
    have here : mark m dir access.isWrite access.la pa = n pa :=
      (kept pa outside).trans (backs.bytes pa outside)
    refine .inr ⟨(access.perform pa n).1,
      (access.perform pa (mark m dir access.isWrite access.la)).2, (access.perform pa n).2,
      by rw [Access.flat, mapped]; rfl, ?_, ?_⟩
    · rw [Access.paged, maps]
      cases access with
      | read la => exact congrArg (fun b => some ([b], _)) here
      | write la b => rfl
    · cases access with
      | read la =>
        exact ⟨backs.tables.same same,
          fun write la' => (backs.tables.target_same same write la').trans (backs.maps write la'),
          fun a elsewhere => (kept a elsewhere).trans (backs.bytes a elsewhere),
          backs.marks.trans same⟩
      | write la b =>
        have stored := same.trans (update_same outside _ b)
        refine ⟨backs.tables.same stored,
          fun write la' => (backs.tables.target_same stored write la').trans (backs.maps write la'),
          ?_, ?_⟩
        · intro a elsewhere
          dsimp only [Access.perform]
          rw [Function.update_apply, Function.update_apply, kept a elsewhere, backs.bytes a elsewhere]
        · -- the store is to the same place in both
          intro a word table
          have both := (backs.marks.trans stored) a word table
          rw [← update_same outside n b a word table] at both
          exact both

/-- A run through the tables reads what a run in the address space reads, faults if that does, and
leaves the same memory outside the tables. -/
theorem run_refines (backs : Backs dir T space m n) {accesses : List Access}
    (avoids : ∀ access ∈ accesses, ∀ pa, space access.isWrite access.la = some pa →
      ¬T (frame pa)) :
    (runAccesses (Access.flat space) accesses n = none ∧
      runAccesses (Access.paged dir) accesses m = none) ∨
      ∃ out m' n', runAccesses (Access.flat space) accesses n = some (out, n') ∧
        runAccesses (Access.paged dir) accesses m = some (out, m') ∧ Backs dir T space m' n' := by
  induction accesses generalizing m n with
  | nil => exact .inr ⟨[], m, n, rfl, rfl, backs⟩
  | cons access rest ih =>
    rcases backs.access access (avoids access (by simp)) with
      ⟨fault, fault'⟩ | ⟨out, m₁, n₁, step, step', backs₁⟩
    · exact .inl ⟨by rw [runAccesses, fault]; rfl, by rw [runAccesses, fault']; rfl⟩
    · rcases ih backs₁ (fun later member => avoids later (by simp [member])) with
        ⟨fault, fault'⟩ | ⟨more, m', n', run, run', backs'⟩
      · exact .inl ⟨by rw [runAccesses_cons step, fault]; rfl,
          by rw [runAccesses_cons step', fault']; rfl⟩
      · exact .inr ⟨out ++ more, m', n', by rw [runAccesses_cons step, run]; rfl,
          by rw [runAccesses_cons step', run']; rfl, backs'⟩

end Runs

end Library
