import Jos.Library.Memory

/-!
# lib/string.c: memmove

The version with string instructions, which the kernel is built with. Its four paths differ
in direction and in the size of an element, not in what they leave in memory.
-/
namespace Jos

open Library

/-- `memmove(dst, src, n)`; whether an `int` is a multiple of 4 does not depend on its sign. -/
def memmove (dst src n : BitVec 32) (m : Mem) : Mem :=
  if src < dst ∧ src + n > dst then
    let s := src + n
    let d := dst + n
    if s.toNat % 4 = 0 ∧ d.toNat % 4 = 0 ∧ n.toNat % 4 = 0 then
      -- std; rep movsl
      repMovs 4 (-4) (n.toNat / 4) (d - 4) (s - 4) m
    else
      -- std; rep movsb
      repMovs 1 (-1) n.toNat (d - 1) (s - 1) m
  else
    if src.toNat % 4 = 0 ∧ dst.toNat % 4 = 0 ∧ n.toNat % 4 = 0 then
      -- cld; rep movsl
      repMovs 4 4 (n.toNat / 4) dst src m
    else
      -- cld; rep movsb
      repMovs 1 1 n.toNat dst src m

def memcpy (dst src n : BitVec 32) (m : Mem) : Mem := memmove dst src n m

section Paths

variable {m : Mem} {dst src n : BitVec 32}

theorem memmove_up (sBound : src.toNat + n.toNat ≤ 4294967296)
    (dBound : dst.toNat + n.toNat ≤ 4294967296)
    (apart : dst.toNat ≤ src.toNat ∨ src.toNat + n.toNat ≤ dst.toNat) (size : Nat)
    {count : Nat} (whole : count * size = n.toNat) :
    repMovs size (BitVec.ofNat 32 size) count dst src m = copied m dst src 0 n.toNat := by
  have run := repMovs_forward (m := m) sBound dBound apart count 0 (by omega : 0 + count * size ≤ _)
  rwa [BitVec.add_zero, BitVec.add_zero, copied_empty, Nat.zero_add,
    whole] at run

theorem memmove_down (sBound : src.toNat + n.toNat ≤ 4294967296)
    (dBound : dst.toNat + n.toNat ≤ 4294967296) (below : src.toNat < dst.toNat) (size : Nat)
    {count : Nat} (whole : count * size = n.toNat) :
    repMovs size (-BitVec.ofNat 32 size) count (dst + n - BitVec.ofNat 32 size)
      (src + n - BitVec.ofNat 32 size) m = copied m dst src 0 n.toNat := by
  have run := repMovs_backward (m := m) sBound dBound below count (Nat.le_of_eq whole)
  rwa [whole, copied_empty, BitVec.ofNat_toNat, BitVec.setWidth_eq] at run

/-- What the overlap test excludes; its sum does not wrap where it matters. -/
theorem apart_of_distinct (dBound : dst.toNat + n.toNat ≤ 4294967296)
    (distinct : ¬(src < dst ∧ src + n > dst)) :
    dst.toNat ≤ src.toNat ∨ src.toNat + n.toNat ≤ dst.toNat := by
  by_contra overlap
  have sum : (src + n).toNat = src.toNat + n.toNat := BitVec.toNat_add_of_lt (by omega)
  apply distinct
  rw [BitVec.lt_def, gt_iff_lt, BitVec.lt_def, sum]
  omega

/-- Whichever path it takes, `memmove` leaves the bytes that the source held at first. -/
theorem memmove_copied (sBound : src.toNat + n.toNat ≤ 4294967296)
    (dBound : dst.toNat + n.toNat ≤ 4294967296) :
    memmove dst src n m = copied m dst src 0 n.toNat := by
  unfold memmove
  split
  · next overlap =>
    -- the source reaches into the destination from below
    have below : src.toNat < dst.toNat := overlap.1
    dsimp only
    split
    · next words => exact memmove_down sBound dBound below 4 (by omega)
    · exact memmove_down sBound dBound below 1 (Nat.mul_one _)
  · next distinct =>
    have apart := apart_of_distinct dBound distinct
    split
    · next words => exact memmove_up sBound dBound apart 4 (by omega)
    · exact memmove_up sBound dBound apart 1 (Nat.mul_one _)

end Paths

end Jos
