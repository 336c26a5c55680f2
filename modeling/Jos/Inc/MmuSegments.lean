import Jos.Library.Segmentation

/-!
# inc/mmu.h: segments and gates

The two macros called `SEG`, one for the assembler and one for C, and what the processor makes of
their descriptors.
-/
namespace Jos

open Library

/-! ### Segment descriptors -/

structure Segdesc where
  sdLim15_0 : BitVec 16
  sdBase15_0 : BitVec 16
  sdBase23_16 : BitVec 8
  sdType : BitVec 4
  sdS : BitVec 1
  sdDpl : BitVec 2
  sdP : BitVec 1
  sdLim19_16 : BitVec 4
  sdAvl : BitVec 1
  sdRsv1 : BitVec 1
  sdDb : BitVec 1
  sdG : BitVec 1
  sdBase31_24 : BitVec 8
  deriving DecidableEq

/-- The bit-fields in memory, the first one lowest. -/
def Segdesc.word (d : Segdesc) : BitVec 64 :=
  d.sdBase31_24 ++ d.sdG ++ d.sdDb ++ d.sdRsv1 ++ d.sdAvl ++ d.sdLim19_16 ++ d.sdP ++ d.sdDpl ++
    d.sdS ++ d.sdType ++ d.sdBase23_16 ++ d.sdBase15_0 ++ d.sdLim15_0

/-- Null segment -/
def SEG_NULL : Segdesc := ⟨0, 0, 0, 0, 0, 0, 0, 0, 0, 0, 0, 0, 0⟩

/-- Normal segment -/
def SEG (type base lim dpl : BitVec 32) : Segdesc where
  sdLim15_0 := (lim >>> 12 &&& 0xFFFF#32).setWidth 16
  sdBase15_0 := (base &&& 0xFFFF#32).setWidth 16
  sdBase23_16 := (base >>> 16 &&& 0xFF#32).setWidth 8
  sdType := type.setWidth 4
  sdS := 1
  sdDpl := dpl.setWidth 2
  sdP := 1
  sdLim19_16 := (lim >>> 28).setWidth 4
  sdAvl := 0
  sdRsv1 := 0
  sdDb := 1
  sdG := 1
  sdBase31_24 := (base >>> 24).setWidth 8

def SEG16 (type base lim dpl : BitVec 32) : Segdesc where
  sdLim15_0 := (lim &&& 0xFFFF#32).setWidth 16
  sdBase15_0 := (base &&& 0xFFFF#32).setWidth 16
  sdBase23_16 := (base >>> 16 &&& 0xFF#32).setWidth 8
  sdType := type.setWidth 4
  sdS := 1
  sdDpl := dpl.setWidth 2
  sdP := 1
  sdLim19_16 := (lim >>> 16).setWidth 4
  sdAvl := 0
  sdRsv1 := 0
  sdDb := 1
  sdG := 0
  sdBase31_24 := (base >>> 24).setWidth 8

/-- The bytes of `.word w` -/
def asmWord (w : BitVec 32) : List (BitVec 8) := [w.setWidth 8, (w >>> 8).setWidth 8]

/-- `SEG_NULL` of the assembler -/
def asmSegNull : List (BitVec 8) := asmWord 0 ++ asmWord 0 ++ [0, 0, 0, 0]

/-- `SEG` of the assembler -/
def asmSeg (type base lim : BitVec 32) : List (BitVec 8) :=
  asmWord (lim >>> 12 &&& 0xFFFF#32) ++ asmWord (base &&& 0xFFFF#32) ++
    [(base >>> 16 &&& 0xFF#32).setWidth 8, (0x90#32 ||| type).setWidth 8,
      (0xC0#32 ||| (lim >>> 28 &&& 0xF#32)).setWidth 8, (base >>> 24 &&& 0xFF#32).setWidth 8]

def STA_X : BitVec 32 := 0x8
def STA_W : BitVec 32 := 0x2
def STA_R : BitVec 32 := 0x2

/-! ### What the processor reads -/

/-- Each bit-field is where the processor looks for it. -/
theorem Segdesc.fields (d : Segdesc) :
    d.word.extractLsb' 0 16 = d.sdLim15_0 ∧ d.word.extractLsb' 16 16 = d.sdBase15_0 ∧
      d.word.extractLsb' 32 8 = d.sdBase23_16 ∧ d.word.extractLsb' 40 4 = d.sdType ∧
      d.word.extractLsb' 44 1 = d.sdS ∧ d.word.extractLsb' 45 2 = d.sdDpl ∧
      d.word.extractLsb' 47 1 = d.sdP ∧ d.word.extractLsb' 48 4 = d.sdLim19_16 ∧
      d.word.extractLsb' 54 1 = d.sdDb ∧ d.word.extractLsb' 55 1 = d.sdG ∧
      d.word.extractLsb' 56 8 = d.sdBase31_24 := by
  refine ⟨?_, ?_, ?_, ?_, ?_, ?_, ?_, ?_, ?_, ?_, ?_⟩ <;>
    simp (disch := decide) only [Segdesc.word, BitVec.extractLsb'_append_eq_of_le,
      BitVec.extractLsb'_append_eq_of_add_le, BitVec.extractLsb'_eq_self, Nat.reduceSub]

/-- The descriptor from its bit-fields. -/
theorem Segdesc.decode (d : Segdesc) :
    Segment.decode d.word =
      { base := d.sdBase31_24 ++ (d.sdBase23_16 ++ d.sdBase15_0)
        limit := segmentLimit (d.sdG == 1) (d.sdLim19_16 ++ d.sdLim15_0)
        type := d.sdType
        application := d.sdS == 1
        dpl := d.sdDpl
        present := d.sdP == 1
        wide := d.sdDb == 1 } := by
  obtain ⟨lim15_0, base15_0, base23_16, type, s, dpl, p, lim19_16, db, g, base31_24⟩ := d.fields
  have base : d.word.extractLsb' 16 24 = d.sdBase23_16 ++ d.sdBase15_0 := by
    rw [← base23_16, ← base15_0]
    exact (@BitVec.extractLsb'_append_extractLsb'_eq_extractLsb' 64 32 16 16 8 d.word rfl).symm
  rw [Segment.decode, base, base31_24, lim19_16, lim15_0, type, dpl]
  simp only [BitVec.getLsbD_eq_extractLsb', s, p, db, g]
  rfl

/-! ### The parts of a number -/

theorem part_eq (x : BitVec 32) (k w : Nat) : (x >>> k).setWidth w = x.extractLsb' k w := by
  ext i inside
  simp

theorem low_part (x : BitVec 32) :
    (x &&& 0xFFFF#32).setWidth 16 = x.setWidth 16 ∧ (x &&& 0xFF#32).setWidth 8 = x.setWidth 8 := by
  constructor <;> ext i inside <;> interval_cases i <;> simp

theorem base_parts (base : BitVec 32) :
    (base >>> 24).setWidth 8 ++ ((base >>> 16 &&& 0xFF#32).setWidth 8 ++
      (base &&& 0xFFFF#32).setWidth 16) = base := by
  have first : base.setWidth 16 = base.extractLsb' 0 16 := part_eq base 0 16
  rw [(low_part _).1, (low_part _).2, part_eq, part_eq, first,
    @BitVec.extractLsb'_append_extractLsb'_eq_extractLsb' 32 16 0 16 8 base rfl,
    @BitVec.extractLsb'_append_extractLsb'_eq_extractLsb' 32 24 0 24 8 base rfl]
  exact BitVec.extractLsb'_eq_self

theorem SEG_decode (type base lim dpl : BitVec 32) :
    Segment.decode (SEG type base lim dpl).word =
      { base, limit := lim ||| 0xFFF#32, type := type.setWidth 4, application := true,
        dpl := dpl.setWidth 2, present := true, wide := true } := by
  have limit : (lim >>> 28).setWidth 4 ++ (lim >>> 12 &&& 0xFFFF#32).setWidth 16 =
      lim.extractLsb' 12 20 := by
    rw [(low_part _).1, part_eq, part_eq]
    exact @BitVec.extractLsb'_append_extractLsb'_eq_extractLsb' 32 28 12 16 4 lim rfl
  rw [Segdesc.decode, ← segmentLimit_pages, ← limit]
  dsimp only [SEG]
  rw [base_parts]
  rfl

/-- Without granularity 20 bits of the limit are kept. -/
theorem SEG16_decode (type base lim dpl : BitVec 32) (small : lim.toNat < 1048576) :
    Segment.decode (SEG16 type base lim dpl).word =
      { base, limit := lim, type := type.setWidth 4, application := true,
        dpl := dpl.setWidth 2, present := true, wide := true } := by
  have limit : (lim >>> 16).setWidth 4 ++ (lim &&& 0xFFFF#32).setWidth 16 =
      lim.extractLsb' 0 20 := by
    have first : lim.setWidth 16 = lim.extractLsb' 0 16 := part_eq lim 0 16
    rw [(low_part _).1, part_eq, first]
    exact @BitVec.extractLsb'_append_extractLsb'_eq_extractLsb' 32 16 0 16 4 lim rfl
  rw [Segdesc.decode]
  dsimp only [SEG16]
  rw [base_parts, limit]
  exact congrArg (fun limit => Segment.mk base limit (type.setWidth 4) true (dpl.setWidth 2) true
    true) (segmentLimit_bytes small)

/-! ### The two macros -/

/-- The bytes of a descriptor in memory. -/
def Segdesc.bytes (d : Segdesc) : List (BitVec 8) :=
  (List.range 8).map fun i => d.word.extractLsb' (8 * i) 8

/-- The byte of the type and of the one before it. -/
theorem Segdesc.access (d : Segdesc) :
    d.word.extractLsb' 40 8 = d.sdP ++ (d.sdDpl ++ (d.sdS ++ d.sdType)) ∧
      d.word.extractLsb' 48 8 = d.sdG ++ (d.sdDb ++ (d.sdRsv1 ++ (d.sdAvl ++ d.sdLim19_16))) := by
  obtain ⟨-, -, -, type, s, dpl, p, lim19_16, db, g, -⟩ := d.fields
  have others : d.word.extractLsb' 52 1 = d.sdAvl ∧ d.word.extractLsb' 53 1 = d.sdRsv1 := by
    constructor <;>
      simp (disch := decide) only [Segdesc.word, BitVec.extractLsb'_append_eq_of_le,
        BitVec.extractLsb'_append_eq_of_add_le, BitVec.extractLsb'_eq_self, Nat.reduceSub]
  constructor
  · rw [← type, ← s, ← dpl, ← p,
      @BitVec.extractLsb'_append_extractLsb'_eq_extractLsb' 64 44 40 4 1 d.word rfl,
      @BitVec.extractLsb'_append_extractLsb'_eq_extractLsb' 64 45 40 5 2 d.word rfl,
      @BitVec.extractLsb'_append_extractLsb'_eq_extractLsb' 64 47 40 7 1 d.word rfl]
  · rw [← lim19_16, ← db, ← g, ← others.1, ← others.2,
      @BitVec.extractLsb'_append_extractLsb'_eq_extractLsb' 64 52 48 4 1 d.word rfl,
      @BitVec.extractLsb'_append_extractLsb'_eq_extractLsb' 64 53 48 5 1 d.word rfl,
      @BitVec.extractLsb'_append_extractLsb'_eq_extractLsb' 64 54 48 6 1 d.word rfl,
      @BitVec.extractLsb'_append_extractLsb'_eq_extractLsb' 64 55 48 7 1 d.word rfl]

theorem Segdesc.halves (d : Segdesc) :
    d.word.extractLsb' 0 8 = d.sdLim15_0.extractLsb' 0 8 ∧
      d.word.extractLsb' 8 8 = d.sdLim15_0.extractLsb' 8 8 ∧
      d.word.extractLsb' 16 8 = d.sdBase15_0.extractLsb' 0 8 ∧
      d.word.extractLsb' 24 8 = d.sdBase15_0.extractLsb' 8 8 := by
  refine ⟨?_, ?_, ?_, ?_⟩ <;>
    simp (disch := decide) only [Segdesc.word, BitVec.extractLsb'_append_eq_of_le,
      BitVec.extractLsb'_append_eq_of_add_le, Nat.reduceSub]

theorem Segdesc.bytes_eq (d : Segdesc) :
    d.bytes = [d.sdLim15_0.extractLsb' 0 8, d.sdLim15_0.extractLsb' 8 8,
      d.sdBase15_0.extractLsb' 0 8, d.sdBase15_0.extractLsb' 8 8, d.sdBase23_16,
      d.sdP ++ (d.sdDpl ++ (d.sdS ++ d.sdType)),
      d.sdG ++ (d.sdDb ++ (d.sdRsv1 ++ (d.sdAvl ++ d.sdLim19_16))), d.sdBase31_24] := by
  obtain ⟨first, second, third, fourth⟩ := d.halves
  obtain ⟨-, -, base23_16, -, -, -, -, -, -, -, base31_24⟩ := d.fields
  rw [← first, ← second, ← third, ← fourth, ← base23_16, ← d.access.1, ← d.access.2, ← base31_24]
  rfl

/-- A word of the assembler, cut to 16 bits first. -/
theorem asmWord_eq (w : BitVec 32) :
    asmWord w = [(w.setWidth 16).extractLsb' 0 8, (w.setWidth 16).extractLsb' 8 8] := by
  have low : w.setWidth 8 = (w.setWidth 16).extractLsb' 0 8 := by
    ext i inside
    simp
    omega
  have high : (w >>> 8).setWidth 8 = (w.setWidth 16).extractLsb' 8 8 := by
    ext i inside
    simp
    omega
  rw [asmWord, low, high]

/-- The bit-fields of the byte of the type, and of the one after it. -/
theorem byte_fields (b : BitVec 8) :
    b.extractLsb' 7 1 ++ (b.extractLsb' 5 2 ++ (b.extractLsb' 4 1 ++ b.extractLsb' 0 4)) = b ∧
      b.extractLsb' 7 1 ++ (b.extractLsb' 6 1 ++ (b.extractLsb' 5 1 ++ (b.extractLsb' 4 1 ++
        b.extractLsb' 0 4))) = b := by
  rw [@BitVec.extractLsb'_append_extractLsb'_eq_extractLsb' 8 4 0 4 1 b rfl,
    @BitVec.extractLsb'_append_extractLsb'_eq_extractLsb' 8 5 0 5 2 b rfl,
    @BitVec.extractLsb'_append_extractLsb'_eq_extractLsb' 8 7 0 7 1 b rfl,
    @BitVec.extractLsb'_append_extractLsb'_eq_extractLsb' 8 5 0 5 1 b rfl,
    @BitVec.extractLsb'_append_extractLsb'_eq_extractLsb' 8 6 0 6 1 b rfl,
    @BitVec.extractLsb'_append_extractLsb'_eq_extractLsb' 8 7 0 7 1 b rfl]
  exact ⟨BitVec.extractLsb'_eq_self, BitVec.extractLsb'_eq_self⟩

theorem access_byte {type : BitVec 32} (small : type.toNat < 16) :
    (0x90#32 ||| type).setWidth 8 = 1#1 ++ (0#2 ++ (1#1 ++ type.setWidth 4)) := by
  have fifth : type[5] = false :=
    Nat.testBit_lt_two_pow (Nat.lt_trans small (show 16 < 2 ^ 5 by decide))
  have sixth : type[6] = false :=
    Nat.testBit_lt_two_pow (Nat.lt_trans small (show 16 < 2 ^ 6 by decide))
  have present : ((0x90#32 ||| type).setWidth 8).extractLsb' 7 1 = 1#1 := by
    ext i inside
    interval_cases i
    simp
  have privilege : ((0x90#32 ||| type).setWidth 8).extractLsb' 5 2 = 0#2 := by
    ext i inside
    interval_cases i <;> simp [fifth, sixth]
  have application : ((0x90#32 ||| type).setWidth 8).extractLsb' 4 1 = 1#1 := by
    ext i inside
    interval_cases i
    simp
  have low : ((0x90#32 ||| type).setWidth 8).extractLsb' 0 4 = type.setWidth 4 := by
    ext i inside
    interval_cases i <;> simp
  have split := (byte_fields ((0x90#32 ||| type).setWidth 8)).1
  rw [present, privilege, application, low] at split
  exact split.symm

theorem flags_byte (lim : BitVec 32) :
    (0xC0#32 ||| (lim >>> 28 &&& 0xF#32)).setWidth 8 =
      1#1 ++ (1#1 ++ (0#1 ++ (0#1 ++ (lim >>> 28).setWidth 4))) := by
  have bits : ∀ k < 4, ((0xC0#32 ||| (lim >>> 28 &&& 0xF#32)).setWidth 8).extractLsb' (4 + k) 1 =
      if 2 ≤ k then 1#1 else 0#1 := by
    intro k inside
    ext i first
    interval_cases i
    interval_cases k <;> simp
  have low : ((0xC0#32 ||| (lim >>> 28 &&& 0xF#32)).setWidth 8).extractLsb' 0 4 =
      (lim >>> 28).setWidth 4 := by
    ext i inside
    interval_cases i <;> simp
  have split := (byte_fields ((0xC0#32 ||| (lim >>> 28 &&& 0xF#32)).setWidth 8)).2
  rw [bits 3 (by decide), bits 2 (by decide), bits 1 (by decide), bits 0 (by decide), low] at split
  exact split.symm

/-- `SEG` of the assembler lays out what `SEG` of C does for privilege level 0. -/
theorem asmSeg_eq {type : BitVec 32} (small : type.toNat < 16) (base lim : BitVec 32) :
    asmSeg type base lim = (SEG type base lim 0).bytes := by
  have top : (base >>> 24 &&& 0xFF#32).setWidth 8 = (base >>> 24).setWidth 8 := (low_part _).2
  rw [Segdesc.bytes_eq, asmSeg, asmWord_eq, asmWord_eq, access_byte small, flags_byte, top]
  rfl

/-- The three macros describe the segment that they are given, to the processor. -/
theorem descriptors_describe {type lim : BitVec 32} (small : type.toNat < 16)
    (bytes : lim.toNat < 1048576) (base lim' dpl : BitVec 32) :
    Segment.decode (SEG type base lim' dpl).word =
        ⟨base, lim' ||| 0xFFF#32, type.setWidth 4, true, dpl.setWidth 2, true, true⟩ ∧
      Segment.decode (SEG16 type base lim dpl).word =
        ⟨base, lim, type.setWidth 4, true, dpl.setWidth 2, true, true⟩ ∧
      asmSeg type base lim' = (SEG type base lim' 0).bytes :=
  ⟨SEG_decode type base lim' dpl, SEG16_decode type base lim dpl bytes, asmSeg_eq small base lim'⟩

theorem descriptors_describe_code :
    Segment.decode (SEG (STA_X ||| STA_R) 0xF0000000 0xFFFFFFFF 3).word =
        ⟨0xF0000000, 0xFFFFFFFF#32 ||| 0xFFF#32, (STA_X ||| STA_R).setWidth 4, true,
          (3 : BitVec 32).setWidth 2, true, true⟩ ∧
      Segment.decode (SEG16 (STA_X ||| STA_R) 0xF0000000 0x67 3).word =
        ⟨0xF0000000, 0x67, (STA_X ||| STA_R).setWidth 4, true, (3 : BitVec 32).setWidth 2, true,
          true⟩ ∧
      asmSeg (STA_X ||| STA_R) 0xF0000000 0xFFFFFFFF =
        (SEG (STA_X ||| STA_R) 0xF0000000 0xFFFFFFFF 0).bytes :=
  descriptors_describe (by decide) (by decide) 0xF0000000 0xFFFFFFFF 3

end Jos
