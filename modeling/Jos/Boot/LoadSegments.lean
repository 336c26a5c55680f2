import Jos.Boot.Main
import Jos.Library.Overlay
import Mathlib.Tactic.IntervalCases

/-!
# Loading whole sectors

`readseg` reads every sector that its range touches, so a segment is loaded together with the
rest of its first and of its last sector. What is in memory in the end comes from the last
segment that has a sector there.
-/
namespace Jos

open Library

/-! ### One sector -/

theorem sector_eq {offset : BitVec 32} (small : offset.toNat < 268435456) :
    (taskFile offset).sector = offset.toNat := by
  -- the bits of the drive are above those of the sector
  have drive : (taskFile offset).drive.toNat % 16 = offset.toNat / 16777216 % 16 := by
    simp only [taskFile, BitVec.toNat_or, BitVec.toNat_setWidth, BitVec.toNat_ushiftRight]
    rw [show 16 = 2 ^ 4 from rfl, Nat.or_mod_two_pow, Nat.shiftRight_eq_div_pow]
    simp
  have low : (taskFile offset).low.toNat = offset.toNat % 256 := by
    simp [taskFile]
  have mid : (taskFile offset).mid.toNat = offset.toNat / 256 % 256 := by
    simp [taskFile, Nat.shiftRight_eq_div_pow]
  have high : (taskFile offset).high.toNat = offset.toNat / 65536 % 256 := by
    simp [taskFile, Nat.shiftRight_eq_div_pow]
  rw [TaskFile.sector, low, mid, high, drive]
  omega

theorem sector_offset {a dst : BitVec 32} {p : Nat} (place : dst.toNat = 512 * p) :
    ((a - dst).toNat < 512 ↔ a.toNat / 512 = p) ∧
      (a.toNat / 512 = p → (a - dst).toNat = a.toNat % 512) := by
  have apart := BitVec.toNat_sub a dst
  have bound := a.isLt
  omega

theorem readsect_eq (disk : Disk) {dst offset : BitVec 32} {p : Nat} (place : dst.toNat = 512 * p)
    (small : offset.toNat < 268435456) (m : Mem) :
    readsect disk dst offset m = fun a =>
      if a.toNat / 512 = p then disk (512 * offset.toNat + a.toNat % 512) else m a := by
  funext a
  obtain ⟨inside, same⟩ := sector_offset (a := a) place
  rw [readsect, insl, sector_eq small, show 4 * (SECTSIZE / 4) = 512 from rfl]
  by_cases here : a.toNat / 512 = p
  · rw [if_pos (inside.mpr here), if_pos here, same here]
    rfl
  · rw [if_neg (fun near => here (inside.mp near)), if_neg here]

/-! ### The sectors of a range -/

/-- Whether the sector of `a` is one that is read for `count` bytes at `pa`. -/
def covers (pa count : BitVec 32) (a : BitVec 32) : Bool :=
  pa.toNat / 512 ≤ a.toNat / 512 ∧ 512 * (a.toNat / 512) < pa.toNat + count.toNat

/-- What is read to `a` when `pa` is read from `offset`. -/
def diskByte (disk : Disk) (pa offset a : BitVec 32) : BitVec 8 :=
  disk (512 * (offset.toNat / 512 + 1 + (a.toNat / 512 - pa.toNat / 512)) + a.toNat % 512)

/-- The loop of `readseg` has read the sectors from `p` up to `q`. -/
structure Progress (disk : Disk) (m : Mem) (endPa p o : Nat) (l : Loading) (q : Nat) : Prop where
  pa : l.pa.toNat = 512 * q
  offset : l.offset.toNat = o + (q - p)
  le : p ≤ q
  last : q = p ∨ 512 * (q - 1) < endPa
  mem : l.mem = fun a => if p ≤ a.toNat / 512 ∧ a.toNat / 512 < q then
    disk (512 * (o + (a.toNat / 512 - p)) + a.toNat % 512) else m a

theorem Progress.next {disk : Disk} {m : Mem} {endPa p o q : Nat} {l : Loading}
    (progress : Progress disk m endPa p o l q) (more : l.pa.toNat < endPa)
    (bound : endPa ≤ 4294966784) (small : o ≤ 8388608) :
    Progress disk m endPa p o (l.next disk) (q + 1) := by
  obtain ⟨pa, offset, le, last, mem⟩ := progress
  have step : (l.pa + BitVec.ofNat 32 SECTSIZE).toNat = l.pa.toNat + 512 := by
    rw [BitVec.toNat_add_of_lt]
    · rfl
    · have : (BitVec.ofNat 32 SECTSIZE).toNat = 512 := rfl
      omega
  have next : (l.offset + 1).toNat = l.offset.toNat + 1 := by
    bv_omega
  refine ⟨?_, ?_, by omega, by omega, ?_⟩
  · rw [Loading.next, step, pa, Nat.mul_succ]
  · rw [Loading.next, next, offset]
    omega
  · rw [Loading.next, readsect_eq disk pa (by omega), mem]
    funext a
    dsimp only
    -- the sector that was just read
    by_cases here : a.toNat / 512 = q
    · rw [if_pos here, if_pos (by omega), offset, here]
    · rw [if_neg here]
      exact if_congr (by omega) rfl rfl

theorem Progress.start (disk : Disk) (m : Mem) (endPa : Nat) {pa offset : BitVec 32} {p : Nat}
    (place : pa.toNat = 512 * p) :
    Progress disk m endPa p offset.toNat { pa, offset, mem := m } p where
  pa := place
  offset := by simp
  le := Nat.le_refl p
  last := .inl rfl
  mem := by
    funext a
    rw [if_neg (by omega)]

theorem sectorStart_toNat (pa : BitVec 32) :
    (pa &&& ~~~(BitVec.ofNat 32 SECTSIZE - 1)).toNat = 512 * (pa.toNat / 512) := by
  -- clearing the low bits is shifting them out
  have shifted : pa &&& ~~~(BitVec.ofNat 32 SECTSIZE - 1) = (pa >>> 9) <<< 9 := by
    rw [show ~~~(BitVec.ofNat 32 SECTSIZE - 1) = 0xFFFFFE00#32 by decide]
    ext i inside
    simp only [BitVec.getElem_and, BitVec.getElem_shiftLeft]
    interval_cases i <;> simp
  have bound := pa.isLt
  rw [shifted, BitVec.toNat_shiftLeft, BitVec.toNat_ushiftRight, Nat.shiftRight_eq_div_pow,
    Nat.shiftLeft_eq]
  omega

theorem firstSector_toNat (offset : BitVec 32) :
    (offset / BitVec.ofNat 32 SECTSIZE + 1).toNat = offset.toNat / 512 + 1 := by
  have quotient : (offset / BitVec.ofNat 32 SECTSIZE).toNat = offset.toNat / 512 := by
    rw [BitVec.toNat_udiv]
    rfl
  have bound := offset.isLt
  rw [BitVec.toNat_add, quotient]
  simp
  omega

/-- `readseg` reads the sectors that its range touches, and nothing else changes. -/
theorem readseg_eq (disk : Disk) {pa count : BitVec 32} (offset : BitVec 32)
    (bound : pa.toNat + count.toNat ≤ 4294966784) (m : Mem) :
    readseg disk pa count offset m = .ok (fun a =>
      if covers pa count a then diskByte disk pa offset a else m a) := by
  have endPa : (pa + count).toNat = pa.toNat + count.toNat := BitVec.toNat_add_of_lt (by omega)
  have start := sectorStart_toNat pa
  have first := firstSector_toNat offset
  have small : offset.toNat / 512 + 1 ≤ 8388608 := by have := offset.isLt; omega
  have initial := @Progress.start disk m (pa + count).toNat _
    (offset / BitVec.ofNat 32 SECTSIZE + 1) _ start
  rw [first] at initial
  -- every turn brings `pa` closer to `end_pa`
  have enough : (pa + count).toNat - (pa &&& ~~~(BitVec.ofNat 32 SECTSIZE - 1)).toNat <
      count.toNat + SECTSIZE := by
    have : SECTSIZE = 512 := rfl
    omega
  obtain ⟨l, run, ⟨q, progress⟩, done⟩ := whileLoop_total
    (fun l : Loading => .ok (l.pa < pa + count)) (fun l => .ok (l.next disk))
    (fun l => ∃ q, Progress disk m (pa + count).toNat (pa.toNat / 512) (offset.toNat / 512 + 1) l q)
    (fun l => (pa + count).toNat - l.pa.toNat)
    (by
      rintro l ⟨q, progress⟩
      by_cases more : l.pa < pa + count
      · right
        have further := progress.next (BitVec.lt_def.mp more) (by omega) small
        have here := progress.pa
        have there := further.pa
        refine ⟨by simp [more], l.next disk, rfl, ⟨q + 1, further⟩, ?_⟩
        have := BitVec.lt_def.mp more
        omega
      · left
        simp [more])
    (count.toNat + SECTSIZE) _ ⟨_, initial⟩ enough
  -- the loop has stopped because `pa` has passed `end_pa`
  have stopped : ¬l.pa.toNat < (pa + count).toNat := by
    simpa [BitVec.lt_def] using done
  obtain ⟨here, -, le, last, mem⟩ := progress
  rw [readseg, run, Exec.ok_bind, mem]
  refine congrArg Except.ok (funext fun a => ?_)
  exact if_congr (by rw [covers, decide_eq_true_iff]; omega) rfl rfl

end Jos
