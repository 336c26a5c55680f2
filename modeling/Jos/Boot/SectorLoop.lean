import Jos.Boot.LoadSegments

/-!
# The sector loop of readseg

The loop compares two addresses that wrap. It ends unless the end of the range lies in the last
sector of the address space: there no start of a sector is past the end.
-/
namespace Jos

open Library

/-! ### What is loaded -/

/-- `readseg` loads its bytes, and nothing outside their sectors. -/
theorem readseg_loads (disk : Disk) {pa count offset : BitVec 32} (some : 0 < count.toNat)
    (aligned : pa.toNat % 512 = offset.toNat % 512)
    (bound : pa.toNat + count.toNat ≤ 0xFFFFFE00)
    (small : offset.toNat + count.toNat < 4294967296) (m : Mem) :
    ∃ m', readseg disk pa count offset m = .ok m' ∧
      (∀ i < count.toNat, m' (BitVec.ofNat 32 (pa.toNat + i)) = disk (512 + offset.toNat + i)) ∧
      ∀ a : BitVec 32, a.toNat < pa.toNat / 512 * 512 ∨
        (pa.toNat + count.toNat + 511) / 512 * 512 ≤ a.toNat → m' a = m a := by
  refine ⟨_, readseg_eq disk offset bound m, ?_, ?_⟩
  · intro i inside
    have place : (BitVec.ofNat 32 (pa.toNat + i)).toNat = pa.toNat + i := by
      rw [BitVec.toNat_ofNat]
      omega
    have covered : covers pa count (BitVec.ofNat 32 (pa.toNat + i)) := by
      rw [covers, decide_eq_true_iff, place]
      omega
    rw [if_pos covered, diskByte, place]
    -- both are as far into their sector
    exact congrArg disk (by omega)
  · intro a outside
    have missed : ¬covers pa count a := by
      rw [covers, decide_eq_true_iff]
      omega
    exact if_neg missed

/-- From the middle of one sector into the middle of the next. -/
theorem readseg_loads_twoSectors :
    ∃ m', readseg (BitVec.ofNat 8) 0x100100 0x200 0x1100 (fun _ => 0) = .ok m' ∧
      (∀ i < 0x200, m' (BitVec.ofNat 32 (0x100100 + i)) = BitVec.ofNat 8 (512 + 0x1100 + i)) ∧
      ∀ a : BitVec 32, a.toNat < 0x100000 ∨ 0x100400 ≤ a.toNat → m' a = 0 :=
  @readseg_loads (BitVec.ofNat 8) 0x100100 0x200 0x1100 (by decide) (by decide) (by decide)
    (by decide) (fun _ => 0)

/-! ### When it ends -/

/-- The variables of the loop in `readseg` when it begins. -/
def Loading.start (pa offset : BitVec 32) (m : Mem) : Loading where
  pa := pa &&& ~~~(BitVec.ofNat 32 SECTSIZE - 1)
  offset := offset / BitVec.ofNat 32 SECTSIZE + 1
  mem := m

/-- The loop of `readseg` ends after `n` sectors, and leaves `m'`. -/
def SectorsRead (disk : Disk) (pa count offset : BitVec 32) (m : Mem) (n : Nat) (m' : Mem) :
    Prop :=
  ∃ l, Turns (fun l : Loading => .ok (l.pa < pa + count)) (fun l => .ok (l.next disk)) n
    (.start pa offset m) l ∧ l.mem = m'

theorem readseg_eq_ok_iff {disk : Disk} {pa count offset : BitVec 32} {m m' : Mem} :
    readseg disk pa count offset m = .ok m' ↔
      ∃ n < count.toNat + SECTSIZE, SectorsRead disk pa count offset m n m' := by
  constructor
  · intro returned
    obtain ⟨l, looped, mem⟩ := Exec.bind_eq_ok.mp returned
    obtain ⟨n, few, turns⟩ := whileLoop_eq_ok_iff.mp looped
    exact ⟨n, few, l, turns, by simpa using mem⟩
  · rintro ⟨n, few, l, turns, rfl⟩
    have looped := whileLoop_eq_ok_iff.mpr ⟨n, few, turns⟩
    rw [Loading.start] at looped
    rw [readseg, looped]
    rfl

section Loop

variable {disk : Disk} {endPa : BitVec 32} {l : Loading}

theorem next_pa (disk : Disk) (l : Loading) :
    (l.next disk).pa.toNat = (l.pa.toNat + 512) % 4294967296 :=
  BitVec.toNat_add l.pa (BitVec.ofNat 32 SECTSIZE)

/-- No address of a sector is past an end in the last sector, so the test never fails. -/
theorem turns_endless {n : Nat} {l' : Loading}
    (turns : Turns (fun l : Loading => .ok (l.pa < endPa)) (fun l => .ok (l.next disk)) n l l')
    (last : 4294966784 < endPa.toNat) (aligned : l.pa.toNat % 512 = 0) : False := by
  induction turns with
  | @stop l tested =>
    have past : ¬l.pa < endPa := by simpa using tested
    have bound := l.pa.isLt
    rw [BitVec.lt_def] at past
    omega
  | @turn _ l _ _ _ next _ ih =>
    obtain rfl := Except.ok.inj next
    apply ih
    rw [next_pa]
    omega

/-- Below the last sector the address does not wrap before it is past the end. -/
theorem turns_ends (disk : Disk) (low : endPa.toNat ≤ 4294966784) (n : Nat) (l : Loading)
    (aligned : l.pa.toNat % 512 = 0) (count : (endPa.toNat - l.pa.toNat + 511) / 512 = n) :
    ∃ l', Turns (fun l : Loading => .ok (l.pa < endPa)) (fun l => .ok (l.next disk)) n l l' := by
  induction n generalizing l with
  | zero =>
    have past : ¬l.pa < endPa := by
      rw [BitVec.lt_def]
      omega
    exact ⟨l, .stop (by simp [past])⟩
  | succ n ih =>
    have more : l.pa < endPa := by
      rw [BitVec.lt_def]
      omega
    have ahead := BitVec.lt_def.mp more
    have step := next_pa disk l
    obtain ⟨l', turns⟩ := ih (l.next disk) (by omega) (by omega)
    exact ⟨l', .turn (by simp [more]) rfl turns⟩

end Loop

theorem start_aligned (pa offset : BitVec 32) (m : Mem) :
    (Loading.start pa offset m).pa.toNat = 512 * (pa.toNat / 512) := sectorStart_toNat pa

/-- With its end in the last sector of the address space, `readseg` never ends. -/
theorem readseg_endless (disk : Disk) {pa count : BitVec 32} (offset : BitVec 32) (m : Mem)
    (last : 4294966784 < (pa + count).toNat) (n : Nat) (m' : Mem) :
    ¬SectorsRead disk pa count offset m n m' := by
  rintro ⟨l, turns, -⟩
  have start := start_aligned pa offset m
  exact turns_endless turns last (by omega)

/-- `readseg` ends, and soon, exactly when its range does not end in the last sector of the
address space. -/
theorem readseg_soon_iff (disk : Disk) (pa count offset : BitVec 32) (m : Mem) :
    (∃ n m', n ≤ count.toNat / 512 + 2 ∧ SectorsRead disk pa count offset m n m') ↔
      (pa + count).toNat ≤ 0xFFFFFE00 := by
  constructor
  · rintro ⟨n, m', -, read⟩
    by_contra last
    exact readseg_endless disk offset m (by omega) n m' read
  · intro low
    have start := start_aligned pa offset m
    obtain ⟨l, turns⟩ := turns_ends disk low _ (.start pa offset m) (by omega) rfl
    refine ⟨_, l.mem, ?_, l, turns, rfl⟩
    -- an end that has wrapped is at most one sector ahead
    have sum := BitVec.toNat_add pa count
    have bound := pa.isLt
    have bound' := count.isLt
    omega

/-- A header whose segment ends in the last sector. -/
theorem readseg_soon_lastSector :
    ¬∃ n m', n ≤ (16 : BitVec 32).toNat / 512 + 2 ∧
      SectorsRead (fun _ => 0) 0xFFFFFF00 16 0x1000 (fun _ => 0) n m' := by
  rintro ⟨n, m', -, read⟩
  exact readseg_endless _ 0x1000 _ (by decide) n m' read

end Jos
