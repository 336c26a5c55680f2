import Mathlib.Logic.Function.Basic
import Mathlib.Data.List.Basic

/-!
# Flat memory

Memory is a total function from 32-bit addresses to bytes, so a frame condition is an
equation. A window copy is described by the offsets of a range that it has reached; the
string instructions move a window by one element at a time.
-/
namespace Library

abbrev Mem := BitVec 32 → BitVec 8

/-- The halfword at an address, little-endian. -/
def load16 (m : Mem) (a : BitVec 32) : BitVec 16 := m (a + 1) ++ m a

def load32 (m : Mem) (a : BitVec 32) : BitVec 32 := m (a + 3) ++ m (a + 2) ++ m (a + 1) ++ m a

def store16 (m : Mem) (a : BitVec 32) (v : BitVec 16) : Mem :=
  Function.update (Function.update m a (v.setWidth 8)) (a + 1) (v.extractLsb' 8 8)

def store32 (m : Mem) (a v : BitVec 32) : Mem := fun b =>
  if (b - a).toNat < 4 then v.extractLsb' (8 * (b - a).toNat) 8 else m b

theorem load16_store16 (m : Mem) (a : BitVec 32) (v : BitVec 16) :
    load16 (store16 m a v) a = v := by
  have next : a ≠ a + 1 := by bv_omega
  rw [load16, store16, Function.update_self, Function.update_of_ne next, Function.update_self]
  apply BitVec.eq_of_getLsbD_eq
  intro i inside
  -- the low byte comes from the first address, the high one from the next
  rw [show (v.extractLsb' 8 8 ++ v.setWidth 8).getLsbD i =
    if i < 8 then (v.setWidth 8).getLsbD i else (v.extractLsb' 8 8).getLsbD (i - 8)
    from BitVec.getLsbD_append]
  split
  · next low => simp [low]
  · next high => simp [show i - 8 < 8 by omega, show 8 + (i - 8) = i by omega]

theorem load16_store16_of_ne (m : Mem) {a b : BitVec 32} (v : BitVec 16) (same : b ≠ a)
    (above : b ≠ a + 1) (below : b + 1 ≠ a) : load16 (store16 m a v) b = load16 m b := by
  have next : b + 1 ≠ a + 1 := by bv_omega
  rw [load16, store16, Function.update_of_ne next, Function.update_of_ne below,
    Function.update_of_ne above, Function.update_of_ne same, load16]

theorem store16_frame (m : Mem) {a b : BitVec 32} (v : BitVec 16) (same : b ≠ a)
    (above : b ≠ a + 1) : store16 m a v b = m b := by
  rw [store16, Function.update_of_ne above, Function.update_of_ne same]

/-- The offset of an address inside a window. -/
theorem offset_toNat (d : BitVec 32) {i : Nat} (inside : i < 4294967296) :
    (d + BitVec.ofNat 32 i - d).toNat = i := by
  bv_omega

/-- An address on either side of a window that does not wrap around. -/
theorem offset_outside {a d : BitVec 32} {n : Nat} (bound : d.toNat + n ≤ 4294967296)
    (outside : a.toNat < d.toNat ∨ d.toNat + n ≤ a.toNat) : ¬(a - d).toNat < n := by
  have apart := BitVec.toNat_sub a d
  have range := a.isLt
  omega

theorem offset_first {a d : BitVec 32} : (a - d).toNat < 1 ↔ a = d := by
  constructor
  · intro first
    bv_omega
  · rintro rfl
    simp

theorem store32_inside (m : Mem) (a v : BitVec 32) {i : Nat} (inside : i < 4) :
    store32 m a v (a + BitVec.ofNat 32 i) = v.extractLsb' (8 * i) 8 := by
  rw [store32, offset_toNat a (by omega), if_pos inside]

/-- A word is its bytes. -/
theorem word_bytes (v : BitVec 32) :
    v.extractLsb' 24 8 ++ v.extractLsb' 16 8 ++ v.extractLsb' 8 8 ++ v.extractLsb' 0 8 = v := by
  rw [BitVec.extractLsb'_append_extractLsb'_eq_extractLsb' (rfl : 24 = 16 + 8),
    BitVec.extractLsb'_append_extractLsb'_eq_extractLsb' (rfl : 16 = 8 + 8),
    BitVec.extractLsb'_append_extractLsb'_eq_extractLsb' (rfl : 8 = 0 + 8)]
  exact BitVec.extractLsb'_eq_self

theorem load32_store32 (m : Mem) (a v : BitVec 32) : load32 (store32 m a v) a = v := by
  have first := store32_inside m a v (by decide : 0 < 4)
  rw [BitVec.add_zero] at first
  have bytes : load32 (store32 m a v) a = v.extractLsb' 24 8 ++ v.extractLsb' 16 8 ++
      v.extractLsb' 8 8 ++ v.extractLsb' 0 8 := by
    rw [load32, first]
    exact congrArg (· ++ _) (congrArg₂ (· ++ ·) (congrArg₂ (· ++ ·)
      (store32_inside m a v (by decide : 3 < 4)) (store32_inside m a v (by decide : 2 < 4)))
      (store32_inside m a v (by decide : 1 < 4)))
  rw [bytes, word_bytes]

theorem store32_above (m : Mem) {a b : BitVec 32} (v : BitVec 32) (above : a.toNat + 4 ≤ b.toNat) :
    store32 m a v b = m b := if_neg (by bv_omega)

/-- A word stays as it is where its bytes do. -/
theorem load32_congr {m m' : Mem} {lo : Nat} (kept : ∀ a : BitVec 32, lo ≤ a.toNat → m' a = m a)
    {a : BitVec 32} (low : lo ≤ a.toNat) (high : a.toNat + 4 ≤ 4294967296) :
    load32 m' a = load32 m a := by
  rw [load32, kept a low, kept (a + 1) (by bv_omega), kept (a + 2) (by bv_omega),
    kept (a + 3) (by bv_omega), load32]

/-- Memory that is given by its aligned words. -/
def wordMem (f : Nat → BitVec 32) : Mem := fun a =>
  (f (a.toNat / 4)).extractLsb' (8 * (a.toNat % 4)) 8

theorem load32_wordMem (f : Nat → BitVec 32) {a : BitVec 32} {i : Nat} (place : a.toNat = 4 * i) :
    load32 (wordMem f) a = f i := by
  have byte : ∀ k : BitVec 32, k.toNat < 4 →
      wordMem f (a + k) = (f i).extractLsb' (8 * k.toNat) 8 := by
    intro k inside
    have bound := a.isLt
    have sum : (a + k).toNat = 4 * i + k.toNat := by bv_omega
    have index : (a + k).toNat / 4 = i := by omega
    have part : (a + k).toNat % 4 = k.toNat := by omega
    rw [wordMem, index, part]
  have first := byte 0#32 (by decide)
  rw [BitVec.add_zero] at first
  rw [load32, byte 3 (by decide), byte 2 (by decide), byte 1 (by decide), first]
  exact word_bytes (f i)

/-- The memory after the bytes at the offsets `[lo, hi)` from `s` have been copied to the same
offsets from `d`. -/
def copied (m : Mem) (d s : BitVec 32) (lo hi : Nat) : Mem := fun a =>
  if lo ≤ (a - d).toNat ∧ (a - d).toNat < hi then m (s + (a - d)) else m a

/-- One string instruction, which loads `size` bytes before it stores them. -/
def movs (size : Nat) (d s : BitVec 32) (m : Mem) : Mem := copied m d s 0 size

/-- `rep movs`, with the pointers moving by `step`. -/
def repMovs (size : Nat) (step : BitVec 32) : Nat → BitVec 32 → BitVec 32 → Mem → Mem
  | 0, _, _, m => m
  | count + 1, d, s, m => repMovs size step count (d + step) (s + step) (movs size d s m)

section Window

variable {m : Mem} {d s : BitVec 32} {n : Nat}

theorem copied_empty (m : Mem) (d s : BitVec 32) (lo : Nat) : copied m d s lo lo = m := by
  funext a
  exact if_neg (by omega)

theorem copied_inside (m : Mem) {d s : BitVec 32} {lo hi : Nat} {a : BitVec 32}
    (inside : lo ≤ (a - d).toNat ∧ (a - d).toNat < hi) :
    copied m d s lo hi a = m (s + (a - d)) := if_pos inside

theorem copied_outside (m : Mem) {d s : BitVec 32} {lo hi : Nat} {a : BitVec 32}
    (outside : ¬(lo ≤ (a - d).toNat ∧ (a - d).toNat < hi)) : copied m d s lo hi a = m a :=
  if_neg outside

/-- A halfword inside the window comes from its place in the source. -/
theorem load16_copied (m : Mem) {d s : BitVec 32} {hi x : Nat} (bound : hi ≤ 4294967296)
    (inside : x + 1 < hi) : load16 (copied m d s 0 hi) (d + BitVec.ofNat 32 x) =
      load16 m (s + BitVec.ofNat 32 x) := by
  have first := offset_toNat d (by omega : x < 4294967296)
  have second : (d + BitVec.ofNat 32 x + 1 - d).toNat = x + 1 := by bv_omega
  have place : s + (d + BitVec.ofNat 32 x - d) = s + BitVec.ofNat 32 x := by bv_omega
  have next : s + (d + BitVec.ofNat 32 x + 1 - d) = s + BitVec.ofNat 32 x + 1 := by bv_omega
  rw [load16, copied_inside m (by omega), copied_inside m (by omega), place, next, load16]

/-- A halfword after the window stays as it is. -/
theorem load16_copied_beyond (m : Mem) {d s : BitVec 32} {hi x : Nat}
    (bound : x + 1 < 4294967296) (beyond : hi ≤ x) :
    load16 (copied m d s 0 hi) (d + BitVec.ofNat 32 x) = load16 m (d + BitVec.ofNat 32 x) := by
  have first := offset_toNat d (by omega : x < 4294967296)
  have second : (d + BitVec.ofNat 32 x + 1 - d).toNat = x + 1 := by bv_omega
  rw [load16, copied_outside m (by omega), copied_outside m (by omega), load16]

theorem offset_element (a d : BitVec 32) {p size : Nat} (inside : p + size ≤ 4294967296) :
    (a - (d + BitVec.ofNat 32 p)).toNat < size ↔
      p ≤ (a - d).toNat ∧ (a - d).toNat < p + size := by
  bv_omega

theorem source_element (a d s p : BitVec 32) : s + p + (a - (d + p)) = s + (a - d) := by
  bv_omega

/-- Where the source of an offset lies, seen from the destination. -/
theorem source_offset (x : BitVec 32) (sBound : s.toNat + n ≤ 4294967296)
    (dBound : d.toNat + n ≤ 4294967296) (inside : x.toNat < n) :
    s.toNat + x.toNat = d.toNat + (s + x - d).toNat ∨ n ≤ (s + x - d).toNat := by
  -- neither range wraps around
  have place : (s + x).toNat = s.toNat + x.toNat := BitVec.toNat_add_of_lt (by omega)
  have apart := BitVec.toNat_sub (s + x) d
  rw [place] at apart
  omega

/-- An element whose source no earlier one has overwritten is copied as it was at first. -/
theorem movs_copied {lo hi p size : Nat} (sBound : s.toNat + n ≤ 4294967296)
    (dBound : d.toNat + n ≤ 4294967296) (inside : p + size ≤ n) (high : hi ≤ n)
    (fresh : ∀ x y, p ≤ x → x < p + size → s.toNat + x = d.toNat + y → y < lo ∨ hi ≤ y) :
    movs size (d + BitVec.ofNat 32 p) (s + BitVec.ofNat 32 p) (copied m d s lo hi) =
      fun a => if p ≤ (a - d).toNat ∧ (a - d).toNat < p + size then m (s + (a - d))
        else copied m d s lo hi a := by
  funext a
  have element := offset_element a d (by omega : p + size ≤ 4294967296)
  unfold movs
  rw [copied]
  simp only [Nat.zero_le, true_and, element, source_element]
  by_cases here : p ≤ (a - d).toNat ∧ (a - d).toNat < p + size
  · -- where its source lies, nothing has been written yet
    have unwritten : ¬(lo ≤ (s + (a - d) - d).toNat ∧ (s + (a - d) - d).toNat < hi) := by
      rcases source_offset (a - d) sBound dBound (by omega) with same | beyond
      · have := fresh _ _ here.1 here.2 same
        omega
      · omega
    rw [if_pos here, if_pos here, copied, if_neg unwritten]
  · rw [if_neg here, if_neg here]

/-- Two windows that are copied make up a third one. -/
theorem copied_join (a : BitVec 32) {lo hi lo' hi' low high : Nat}
    (join : ∀ x, low ≤ x ∧ x < high ↔ (lo ≤ x ∧ x < hi) ∨ (lo' ≤ x ∧ x < hi')) :
    (if lo ≤ (a - d).toNat ∧ (a - d).toNat < hi then m (s + (a - d))
      else copied m d s lo' hi' a) = copied m d s low high a := by
  by_cases here : lo ≤ (a - d).toNat ∧ (a - d).toNat < hi
  · rw [if_pos here, copied_inside m ((join _).mpr (.inl here))]
  · rw [if_neg here]
    exact if_congr ((or_iff_right here).symm.trans (join _).symm) rfl rfl

/-- Copying upwards is right unless the source begins below the destination and reaches
into it. -/
theorem repMovs_forward {size : Nat} (sBound : s.toNat + n ≤ 4294967296)
    (dBound : d.toNat + n ≤ 4294967296) (apart : d.toNat ≤ s.toNat ∨ s.toNat + n ≤ d.toNat)
    (count p : Nat) (inside : p + count * size ≤ n) :
    repMovs size (BitVec.ofNat 32 size) count (d + BitVec.ofNat 32 p) (s + BitVec.ofNat 32 p)
      (copied m d s 0 p) = copied m d s 0 (p + count * size) := by
  induction count generalizing p with
  | zero => simp [repMovs]
  | succ count ih =>
    rw [Nat.succ_mul] at inside
    have element : movs size (d + BitVec.ofNat 32 p) (s + BitVec.ofNat 32 p)
        (copied m d s 0 p) = copied m d s 0 (p + size) := by
      -- the offsets below `p` are written, and no source above lies there
      have fresh : ∀ x y, p ≤ x → x < p + size → s.toNat + x = d.toNat + y → y < 0 ∨ p ≤ y := by
        intro x y low high same
        omega
      rw [movs_copied sBound dBound (by omega) (by omega) fresh]
      funext a
      exact copied_join a (fun x => by omega)
    rw [repMovs, element, BitVec.add_assoc, BitVec.add_assoc, ← BitVec.ofNat_add,
      ih (p + size) (by omega), Nat.succ_mul, Nat.add_assoc p, Nat.add_comm size]

/-- Copying downwards is right when the source begins below the destination. -/
theorem repMovs_backward {size : Nat} (sBound : s.toNat + n ≤ 4294967296)
    (dBound : d.toNat + n ≤ 4294967296) (below : s.toNat < d.toNat) (count : Nat)
    (inside : count * size ≤ n) :
    repMovs size (-BitVec.ofNat 32 size) count
      (d + BitVec.ofNat 32 (count * size) - BitVec.ofNat 32 size)
      (s + BitVec.ofNat 32 (count * size) - BitVec.ofNat 32 size)
      (copied m d s (count * size) n) = copied m d s 0 n := by
  induction count with
  | zero => simp [repMovs]
  | succ count ih =>
    -- the pointers stand at the last element that is not copied yet
    have last : ∀ a : BitVec 32, a + BitVec.ofNat 32 ((count + 1) * size) - BitVec.ofNat 32 size =
        a + BitVec.ofNat 32 (count * size) := by
      intro a
      rw [Nat.succ_mul, BitVec.ofNat_add, ← BitVec.add_assoc, BitVec.add_sub_cancel]
    rw [Nat.succ_mul] at inside
    have element : movs size (d + BitVec.ofNat 32 (count * size))
        (s + BitVec.ofNat 32 (count * size)) (copied m d s (count * size + size) n) =
        copied m d s (count * size) n := by
      -- the offsets above are written, and no source below lies there
      have fresh : ∀ x y, count * size ≤ x → x < count * size + size →
          s.toNat + x = d.toNat + y → y < count * size + size ∨ n ≤ y := by
        intro x y low high same
        omega
      rw [movs_copied sBound dBound inside (Nat.le_refl n) fresh]
      funext a
      exact copied_join a (fun x => by omega)
    rw [last, last, repMovs, Nat.succ_mul, element, ← BitVec.sub_eq_add_neg,
      ← BitVec.sub_eq_add_neg]
    exact ih (by omega)

end Window

end Library
