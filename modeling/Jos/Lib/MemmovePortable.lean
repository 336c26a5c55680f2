import Jos.Lib.Memmove

/-!
# lib/string.c: the portable memmove

The version under `#else` moves one byte at a time. Its two loops are the byte paths of the
version with string instructions.
-/
namespace Jos

open Library

/-- `while (n-- > 0) *--d = *--s` -/
def moveDown : Nat → BitVec 32 → BitVec 32 → Mem → Mem
  | 0, _, _, m => m
  | n + 1, d, s, m => moveDown n (d - 1) (s - 1) (Function.update m (d - 1) (m (s - 1)))

/-- `while (n-- > 0) *d++ = *s++` -/
def moveUp : Nat → BitVec 32 → BitVec 32 → Mem → Mem
  | 0, _, _, m => m
  | n + 1, d, s, m => moveUp n (d + 1) (s + 1) (Function.update m d (m s))

def memmovePortable (dst src n : BitVec 32) (m : Mem) : Mem :=
  if src < dst ∧ src + n > dst then
    let s := src + n
    let d := dst + n
    moveDown n.toNat d s m
  else moveUp n.toNat dst src m

/-- A string instruction on a byte is an assignment. -/
theorem movs_byte (d s : BitVec 32) (m : Mem) : movs 1 d s m = Function.update m d (m s) := by
  funext a
  unfold movs copied
  by_cases here : a = d
  · subst here
    rw [if_pos ⟨Nat.zero_le _, offset_first.mpr rfl⟩, Function.update_self, BitVec.sub_self,
      BitVec.add_zero]
  · rw [if_neg (fun inside => here (offset_first.mp inside.2)), Function.update_of_ne here]

theorem moveUp_eq_repMovs (n : Nat) (d s : BitVec 32) (m : Mem) :
    moveUp n d s m = repMovs 1 1 n d s m := by
  induction n generalizing d s m with
  | zero => rfl
  | succ n ih => rw [moveUp, repMovs, movs_byte, ih]

/-- The pointers of the loop stand one byte above those of the string instruction. -/
theorem moveDown_eq_repMovs (n : Nat) (d s : BitVec 32) (m : Mem) :
    moveDown n d s m = repMovs 1 (-1) n (d - 1) (s - 1) m := by
  induction n generalizing d s m with
  | zero => rfl
  | succ n ih => rw [moveDown, repMovs, movs_byte, ih, BitVec.sub_eq_add_neg (d - 1),
      BitVec.sub_eq_add_neg (s - 1)]

section Correct

variable {m : Mem} {dst src n : BitVec 32} (sBound : src.toNat + n.toNat ≤ 4294967296)
  (dBound : dst.toNat + n.toNat ≤ 4294967296)
include sBound dBound

theorem memmovePortable_copied : memmovePortable dst src n m = copied m dst src 0 n.toNat := by
  unfold memmovePortable
  split
  · next overlap =>
    have below : src.toNat < dst.toNat := overlap.1
    rw [moveDown_eq_repMovs]
    exact memmove_down sBound dBound below 1 (Nat.mul_one _)
  · next distinct =>
    rw [moveUp_eq_repMovs]
    exact memmove_up sBound dBound (apart_of_distinct dBound distinct) 1 (Nat.mul_one _)

/-- `memmove` moves the bytes that the source held before the call, leaves every other byte alone
and is the same function as its portable version. -/
theorem memmove_correct :
    (∀ i < n.toNat, memmove dst src n m (dst + BitVec.ofNat 32 i) = m (src + BitVec.ofNat 32 i)) ∧
      (∀ a, a.toNat < dst.toNat ∨ dst.toNat + n.toNat ≤ a.toNat → memmove dst src n m a = m a) ∧
      memmove dst src n m = memmovePortable dst src n m := by
  rw [memmovePortable_copied sBound dBound, memmove_copied sBound dBound]
  refine ⟨?_, ?_, rfl⟩
  · intro i inside
    have offset : dst + BitVec.ofNat 32 i - dst = BitVec.ofNat 32 i := by bv_omega
    have place := offset_toNat dst (by omega : i < 4294967296)
    rw [copied_inside m (by omega), offset]
  · intro a outside
    exact copied_outside m (fun inside => offset_outside dBound outside inside.2)

end Correct

/-- Eight bytes move up by four: two words, from the last one down. -/
theorem memmove_correct_words :
    let m : Mem := fun a => a.setWidth 8
    (∀ i < (8 : BitVec 32).toNat,
      memmove 0x1004 0x1000 8 m (0x1004 + BitVec.ofNat 32 i) = m (0x1000 + BitVec.ofNat 32 i)) ∧
      (∀ a, a.toNat < (0x1004 : BitVec 32).toNat ∨
        (0x1004 : BitVec 32).toNat + (8 : BitVec 32).toNat ≤ a.toNat →
          memmove 0x1004 0x1000 8 m a = m a) ∧
      memmove 0x1004 0x1000 8 m = memmovePortable 0x1004 0x1000 8 m :=
  memmove_correct (by decide) (by decide)

end Jos
