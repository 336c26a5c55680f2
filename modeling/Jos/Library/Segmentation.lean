import Jos.Library.Memory
import Mathlib.Tactic.IntervalCases

/-!
# Segments

What the processor reads from a segment descriptor, and what it does with an address in the
segment. A segment of all addresses with base 0 leaves every address as it is.
-/
namespace Library

/-- What a descriptor of 64 bits says. -/
structure Segment where
  base : BitVec 32
  limit : BitVec 32
  type : BitVec 4
  /-- Code or data, not a system segment. -/
  application : Bool
  dpl : BitVec 2
  present : Bool
  /-- 32-bit segment -/
  wide : Bool
  deriving DecidableEq

/-- The limit in bytes: with granularity it counts pages. -/
def segmentLimit (granular : Bool) (limit : BitVec 20) : BitVec 32 :=
  if granular then limit.setWidth 32 <<< 12 ||| 0xFFF#32 else limit.setWidth 32

def Segment.decode (d : BitVec 64) : Segment where
  base := d.extractLsb' 56 8 ++ d.extractLsb' 16 24
  limit := segmentLimit (d.getLsbD 55) (d.extractLsb' 48 4 ++ d.extractLsb' 0 16)
  type := d.extractLsb' 40 4
  application := d.getLsbD 44
  dpl := d.extractLsb' 45 2
  present := d.getLsbD 47
  wide := d.getLsbD 54

namespace Segment

def code (s : Segment) : Bool := s.type.getLsbD 3

/-- Writing takes a data segment that is writable, reading one that is not a code segment only
for execution. -/
def allows (s : Segment) (write : Bool) : Bool :=
  s.application && s.present &&
    (if write then !s.code && s.type.getLsbD 1 else !s.code || s.type.getLsbD 1)

def executable (s : Segment) : Bool := s.application && s.present && s.code

/-- The segment with the mark that it gets when its selector is loaded. -/
def accessed (s : Segment) : Segment := { s with type := s.type ||| 1 }

/-- The linear address of a byte in a segment that expands up, unless it is past the limit. -/
def linear (s : Segment) (offset : BitVec 32) : Option (BitVec 32) :=
  if offset ≤ s.limit then some (s.base + offset) else none

/-- All addresses, from 0 on. -/
def Flat (s : Segment) : Prop := s.base = 0 ∧ s.limit = 0xFFFFFFFF

theorem Flat.linear {s : Segment} (flat : Flat s) (offset : BitVec 32) :
    s.linear offset = some offset := by
  have below : offset ≤ s.limit := by
    rw [flat.2, BitVec.le_def]
    exact Nat.le_of_lt_succ offset.isLt
  rw [Segment.linear, if_pos below, flat.1]
  exact congrArg some (BitVec.zero_add offset)

end Segment

/-- With granularity the limit is the one that was meant, up to the end of its page. -/
theorem segmentLimit_pages (limit : BitVec 32) :
    segmentLimit true (limit.extractLsb' 12 20) = limit ||| 0xFFF#32 := by
  rw [segmentLimit, if_pos rfl]
  ext i inside
  interval_cases i <;> simp

/-- Without it the limit is the one that was meant if 20 bits are enough. -/
theorem segmentLimit_bytes {limit : BitVec 32} (small : limit.toNat < 1048576) :
    segmentLimit false (limit.extractLsb' 0 20) = limit := by
  rw [segmentLimit, if_neg (by decide), ← BitVec.toNat_inj]
  simp [Nat.mod_eq_of_lt small]
  omega

/-! ### Tables of descriptors -/

/-- The register that the descriptors are found through. -/
structure TableRegister where
  limit : BitVec 16
  base : BitVec 32

def load64 (m : Mem) (a : BitVec 32) : BitVec 64 := load32 m (a + 4) ++ load32 m a

theorem load32_bytes {m : Mem} {a : BitVec 32} {w : BitVec 64} {k : Nat}
    (held : ∀ i < 4, m (a + BitVec.ofNat 32 i) = w.extractLsb' (k + 8 * i) 8) :
    load32 m a = w.extractLsb' k 32 := by
  have first : m a = w.extractLsb' k 8 := by simpa using held 0 (by decide)
  have second : m (a + 1) = w.extractLsb' (k + 8) 8 := held 1 (by decide)
  have third : m (a + 2) = w.extractLsb' (k + 16) 8 := held 2 (by decide)
  have fourth : m (a + 3) = w.extractLsb' (k + 24) 8 := held 3 (by decide)
  rw [load32, first, second, third, fourth,
    @BitVec.extractLsb'_append_extractLsb'_eq_extractLsb' 64 (k + 24) (k + 16) 8 8 w rfl,
    @BitVec.extractLsb'_append_extractLsb'_eq_extractLsb' 64 (k + 16) (k + 8) 8 16 w rfl,
    @BitVec.extractLsb'_append_extractLsb'_eq_extractLsb' 64 (k + 8) k 8 24 w rfl]

theorem load64_bytes {m : Mem} {a : BitVec 32} {w : BitVec 64}
    (held : ∀ i < 8, m (a + BitVec.ofNat 32 i) = w.extractLsb' (8 * i) 8) : load64 m a = w := by
  have low : load32 m a = w.extractLsb' 0 32 := by
    refine load32_bytes fun i inside => ?_
    rw [held i (by omega), Nat.zero_add]
  have high : load32 m (a + 4) = w.extractLsb' 32 32 := by
    refine load32_bytes fun i inside => ?_
    have place : a + 4 + BitVec.ofNat 32 i = a + BitVec.ofNat 32 (4 + i) := by bv_omega
    rw [place, held (4 + i) (by omega), Nat.mul_add]
  rw [load64, low, high, @BitVec.extractLsb'_append_extractLsb'_eq_extractLsb' 64 32 0 32 32 w rfl]
  exact BitVec.extractLsb'_eq_self

/-- Where the descriptor of a selector is. -/
def TableRegister.place (r : TableRegister) (selector : BitVec 16) : BitVec 32 :=
  r.base + BitVec.ofNat 32 (8 * (selector >>> 3).toNat)

/-- The descriptor of a selector for the global table; not for the null selector, and not for one
that is past the limit. -/
def TableRegister.descriptor (r : TableRegister) (m : Mem) (selector : BitVec 16) :
    Option Segment :=
  let index := (selector >>> 3).toNat
  if selector.getLsbD 2 then none
  else if index = 0 then none
  else if 8 * index + 7 ≤ r.limit.toNat then some (Segment.decode (load64 m (r.place selector)))
  else none

theorem TableRegister.descriptor_eq {r : TableRegister} {selector : BitVec 16} (index : Nat)
    (table : selector.getLsbD 2 = false) (number : (selector >>> 3).toNat = index)
    (nonnull : index ≠ 0) (within : 8 * index + 7 ≤ r.limit.toNat) (m : Mem) :
    r.descriptor m selector =
      some (Segment.decode (load64 m (r.base + BitVec.ofNat 32 (8 * index)))) := by
  rw [TableRegister.descriptor, TableRegister.place, table, number, if_neg (by decide),
    if_neg nonnull, if_pos within]

end Library
