import Jos.Lib.FormatRules
import Jos.Lib.Snprintf

/-!
# lib/string.c: copies and scans

`strcpy` and `strcat` go as far as the string does, and `strlcpy` as far as its size. A buffer
stands next to nothing that it could overlap.
-/
namespace Jos

open Library

/-! ### strcpy, strcat -/

theorem writeAt_end {α : Type} (written : List α) (x : α) :
    writeAt written written.length x = .error .outOfBounds := by
  simp [writeAt]

theorem strlen_terminated {s : List UInt8} (noNul : 0 ∉ s) (tail : List UInt8) :
    strlen (s ++ 0 :: tail) = .ok s.length := by
  induction s with
  | nil => rfl
  | cons b s ih =>
    obtain ⟨nonzero, later⟩ : 0 ≠ b ∧ 0 ∉ s := by simpa using noNul
    rw [List.cons_append, strlen, if_pos (Ne.symm nonzero), ih later]
    rfl

/-- The string fits with its NUL, or the byte after the object is written. -/
theorem strcpyFrom_terminated {s : List UInt8} (noNul : 0 ∉ s) (tail written free : List UInt8) :
    strcpyFrom (written ++ free) written.length (s ++ 0 :: tail) =
      if s.length < free.length then .ok (written ++ s ++ 0 :: free.drop (s.length + 1))
      else .error .outOfBounds := by
  induction s generalizing written free with
  | nil =>
    cases free with
    | nil =>
      rw [List.append_nil, List.nil_append, strcpyFrom, writeAt_end]
      rfl
    | cons old free =>
      rw [List.nil_append, strcpyFrom, writeAt_next]
      simp
  | cons b s ih =>
    obtain ⟨nonzero, later⟩ : 0 ≠ b ∧ 0 ∉ s := by simpa using noNul
    rw [List.cons_append, strcpyFrom]
    cases free with
    | nil =>
      rw [List.append_nil, writeAt_end]
      rfl
    | cons old free =>
      have next := ih later (written ++ [b]) free
      rw [List.length_append, List.length_singleton] at next
      rw [writeAt_next, Exec.ok_bind, if_pos (Ne.symm nonzero), next]
      simp

theorem strcat_terminated {q s : List UInt8} (held : 0 ∉ q) (noNul : 0 ∉ s)
    (free tail : List UInt8) :
    strcat (q ++ 0 :: free) (s ++ 0 :: tail) =
      if s.length ≤ free.length then .ok (q ++ s ++ 0 :: free.drop s.length)
      else .error .outOfBounds := by
  rw [strcat, strlen_terminated held, Exec.ok_bind, strcpyFrom_terminated noNul]
  exact if_congr Nat.lt_succ_iff rfl rfl

/-- `strcpy` of the first string, and `strcat` of the others. -/
def buildString (dst : List UInt8) (first : CString) (rest : List CString) : Exec (List UInt8) := do
  let dst ← strcpy dst first.object
  rest.foldlM (fun dst s => strcat dst s.object) dst

theorem strcats_eq (ss : List CString) {q : List UInt8} (held : 0 ∉ q) (free : List UInt8) :
    ss.foldlM (fun dst s => strcat dst s.object) (q ++ 0 :: free) =
      if (ss.flatMap CString.bytes).length ≤ free.length then
        .ok (q ++ ss.flatMap CString.bytes ++ 0 :: free.drop (ss.flatMap CString.bytes).length)
      else .error .outOfBounds := by
  induction ss generalizing q free with
  | nil => simp
  | cons s ss ih =>
    have whole : ((s :: ss).flatMap CString.bytes).length =
        s.bytes.length + (ss.flatMap CString.bytes).length := by
      rw [List.flatMap_cons, List.length_append]
    have joined : 0 ∉ q ++ s.bytes := by simp [held, s.noNul]
    rw [List.foldlM_cons, CString.object, strcat_terminated held s.noNul, whole]
    by_cases fits : s.bytes.length ≤ free.length
    · have rest : ((ss.flatMap CString.bytes).length ≤ (free.drop s.bytes.length).length) ↔
          s.bytes.length + (ss.flatMap CString.bytes).length ≤ free.length := by
        rw [List.length_drop]
        omega
      rw [if_pos fits, Exec.ok_bind, ih joined]
      refine if_congr rest ?_ rfl
      rw [List.flatMap_cons, List.drop_drop]
      simp only [List.append_assoc]
    · rw [if_neg fits, if_neg (by omega)]
      rfl

/-- A buffer that is large enough for all of the strings holds them one after the other, and the
rest of it is what it was; with a smaller one the code writes behind it. -/
theorem buildString_eq (dst : List UInt8) (first : CString) (rest : List CString) :
    buildString dst first rest =
      if ((first :: rest).flatMap CString.bytes).length < dst.length then
        .ok ((first :: rest).flatMap CString.bytes ++
          0 :: dst.drop (((first :: rest).flatMap CString.bytes).length + 1))
      else .error .outOfBounds := by
  have copied := strcpyFrom_terminated first.noNul [] [] dst
  have whole : ((first :: rest).flatMap CString.bytes).length =
      first.bytes.length + (rest.flatMap CString.bytes).length := by
    rw [List.flatMap_cons, List.length_append]
  rw [List.nil_append, List.nil_append, List.length_nil] at copied
  rw [buildString, strcpy, CString.object, copied, whole]
  by_cases fits : first.bytes.length < dst.length
  · have room : (rest.flatMap CString.bytes).length ≤ (dst.drop (first.bytes.length + 1)).length ↔
        first.bytes.length + (rest.flatMap CString.bytes).length < dst.length := by
      rw [List.length_drop]
      omega
    rw [if_pos fits, Exec.ok_bind, strcats_eq rest first.noNul]
    refine if_congr room ?_ rfl
    rw [List.flatMap_cons, List.drop_drop, Nat.add_right_comm]
  · rw [if_neg fits, if_neg (by omega)]
    rfl

/-! ### strlcpy -/

/-- A source that is not terminated is read no further than it is copied. -/
theorem strlcpyFrom_eq (src written free : List UInt8) (size : Nat)
    (terminated : 0 ∈ src ∨ size ≤ src.length) (room : size < free.length) :
    strlcpyFrom (written ++ free) written.length src size =
      .ok (written ++ (src.take size).takeWhile (· != 0) ++
          free.drop ((src.take size).takeWhile (· != 0)).length,
        written.length + ((src.take size).takeWhile (· != 0)).length) := by
  induction src generalizing written free size with
  | nil =>
    obtain rfl : size = 0 := by simpa using terminated
    simp [strlcpyFrom]
  | cons b src ih =>
    cases size with
    | zero => simp [strlcpyFrom]
    | succ size =>
      rw [strlcpyFrom]
      by_cases nul : b = 0
      · simp [nul]
      · obtain ⟨old, free, rfl⟩ := List.exists_cons_of_ne_nil
          (List.ne_nil_of_length_pos (Nat.lt_of_le_of_lt (Nat.zero_le _) room))
        have next := ih (written ++ [b]) free size
          (terminated.imp (by simp [Ne.symm nul]) (by simp)) (by simpa using room)
        rw [List.length_append, List.length_singleton] at next
        rw [if_pos nul, writeAt_next, Exec.ok_bind, next]
        simp [nul, Nat.add_assoc, Nat.add_comm 1]

theorem strlcpy_eq (src object : List UInt8) {size : Nat} (positive : 0 < size)
    (terminated : 0 ∈ src ∨ size ≤ src.length + 1) (room : size ≤ object.length) :
    strlcpy object src size =
      .ok ((src.take (size - 1)).takeWhile (· != 0) ++
          0 :: object.drop (((src.take (size - 1)).takeWhile (· != 0)).length + 1),
        ((src.take (size - 1)).takeWhile (· != 0)).length) := by
  have copied := strlcpyFrom_eq src [] object (size - 1)
    (terminated.imp_right fun long => by omega) (by omega)
  rw [List.nil_append, List.nil_append, List.length_nil, Nat.zero_add] at copied
  have short : ((src.take (size - 1)).takeWhile (· != 0)).length < object.length := by
    have := (List.takeWhile_prefix (· != 0) (l := src.take (size - 1))).length_le
    rw [List.length_take] at this
    omega
  rw [strlcpy, if_pos positive, copied, Exec.ok_bind]
  dsimp only
  rw [List.drop_eq_getElem_cons short, writeAt_next]
  simp

/-- The string that is left, which is terminated. -/
theorem strlen_copied (src tail : List UInt8) (size : Nat) :
    strlen ((src.take size).takeWhile (· != 0) ++ 0 :: tail) =
      .ok ((src.take size).takeWhile (· != 0)).length := by
  refine strlen_terminated (fun nul => ?_) tail
  have nonzero := List.mem_takeWhile_imp nul
  exact absurd nonzero (by decide)

theorem ofInt_charInt (b : UInt8) : UInt8.ofInt (charInt b) = b :=
  forall_byte (p := fun b => UInt8.ofInt (charInt b) = b) (by decide +kernel) b

theorem snprintf_string {s : CString} {addr : BitVec 32} (nonnull : addr ≠ 0)
    (object tail : List UInt8) {size : Nat} (positive : 0 < size) (room : size ≤ object.length) :
    snprintf (some object) size (literal "%s" ++ [0]) [.ptr addr (s.bytes ++ 0 :: tail)] =
      .ok (s.bytes.length, some (s.bytes.take (size - 1) ++
        0 :: object.drop ((s.bytes.take (size - 1)).length + 1))) := by
  have short := s.fits
  have text := Renders.nil.string nonnull s.noNul (by omega) tail
  rw [List.append_nil, List.append_nil] at text
  have kept : stored size (s.bytes.map charInt) = s.bytes.take (size - 1) := by
    have count : ((size : Int) - 1).toNat = size - 1 := by omega
    rw [stored, count, ← List.map_take, List.map_map]
    exact (List.map_congr_left fun b _ => ofInt_charInt b).trans (List.map_id _)
  have printed := vsnprintf_text (by decide) text (by rw [List.length_map]; omega) object size
    (by omega) (by omega)
  rw [kept, List.length_map] at printed
  exact printed

/-- `strlcpy` leaves a buffer as `snprintf` with `%s` does. What it returns is the length of the
string in the buffer, and not that of the source. -/
theorem strlcpy_snprintf (s : CString) {addr : BitVec 32} (nonnull : addr ≠ 0)
    (object tail : List UInt8) {size : Nat} (positive : 0 < size) (room : size ≤ object.length) :
    ∃ object', strlcpy object (s.bytes ++ 0 :: tail) size =
        .ok (object', min s.bytes.length (size - 1)) ∧
      snprintf (some object) size (literal "%s" ++ [0]) [.ptr addr (s.bytes ++ 0 :: tail)] =
        .ok (s.bytes.length, some object') ∧
      strlen object' = .ok (min s.bytes.length (size - 1)) := by
  -- as much of the string as fits
  have kept : ((s.bytes ++ 0 :: tail).take (size - 1)).takeWhile (· != 0) =
      s.bytes.take (size - 1) := by
    rw [← List.take_takeWhile, takeWhile_nul s.noNul]
  have length : (s.bytes.take (size - 1)).length = min s.bytes.length (size - 1) := by
    rw [List.length_take, Nat.min_comm]
  have copied := strlcpy_eq (s.bytes ++ 0 :: tail) object positive (.inl (by simp)) room
  have counted := strlen_copied (s.bytes ++ 0 :: tail)
    (object.drop ((s.bytes.take (size - 1)).length + 1)) (size - 1)
  rw [kept] at copied counted
  rw [length] at copied counted
  refine ⟨_, copied, ?_, counted⟩
  rw [snprintf_string nonnull object tail positive room, length]

theorem strlcpy_snprintf_cut :
    ∃ object', strlcpy [1, 2, 3, 4, 5] ([0x4A, 0x4F, 0x53, 0x21] ++ 0 :: []) 4 =
        .ok (object', min 4 3) ∧
      snprintf (some [1, 2, 3, 4, 5]) 4 (literal "%s" ++ [0])
        [.ptr 0xF0101000 ([0x4A, 0x4F, 0x53, 0x21] ++ 0 :: [])] = .ok (4, some object') ∧
      strlen object' = .ok (min 4 3) :=
  strlcpy_snprintf ⟨[0x4A, 0x4F, 0x53, 0x21], by decide, by decide⟩ (by decide) [1, 2, 3, 4, 5] []
    (by decide) (by decide)

/-! ### Scans -/

section Scans

variable {p : List UInt8}

theorem memfind_idxOf (p tail : List UInt8) (c : Int) :
    memfind (p ++ tail) c p.length = .ok (p.idxOf (UInt8.ofInt c)) := by
  induction p with
  | nil => cases tail <;> rfl
  | cons b p ih =>
    rw [List.cons_append, List.length_cons, memfind, List.idxOf_cons]
    by_cases same : b = UInt8.ofInt c
    · rw [if_pos same, beq_iff_eq.mpr same]
      rfl
    · rw [if_neg same, ih, beq_false_of_ne same]
      rfl

theorem strfind_idxOf (noNul : 0 ∉ p) (tail : List UInt8) (c : UInt8) :
    strfind (p ++ 0 :: tail) c = .ok (p.idxOf c) := by
  induction p with
  | nil => rfl
  | cons b p ih =>
    obtain ⟨nonzero, later⟩ : 0 ≠ b ∧ 0 ∉ p := by simpa using noNul
    rw [List.cons_append, strfind, if_pos (Ne.symm nonzero), List.idxOf_cons]
    by_cases same : b = c
    · rw [if_pos same, beq_iff_eq.mpr same]
      rfl
    · rw [if_neg same, ih later, beq_false_of_ne same]
      rfl

theorem idxOf?_eq (p : List UInt8) (c : UInt8) :
    p.idxOf? c = if p.idxOf c < p.length then some (p.idxOf c) else none := by
  induction p with
  | nil => rfl
  | cons b p ih =>
    rw [List.idxOf?_cons, List.idxOf_cons, ih, List.length_cons]
    cases b == c with
    | true => simp
    | false =>
      by_cases found : p.idxOf c < p.length <;> simp [found]

theorem memfind_strnlen (noNul : 0 ∉ p) (tail : List UInt8) (n : Nat) :
    memfind (p ++ 0 :: tail) 0 n = strnlen (p ++ 0 :: tail) n := by
  have zero : UInt8.ofInt 0 = 0 := rfl
  induction p generalizing n with
  | nil =>
    cases n with
    | zero => rfl
    | succ n => rw [List.nil_append, memfind, strnlen, zero]; rfl
  | cons b p ih =>
    obtain ⟨nonzero, later⟩ : 0 ≠ b ∧ 0 ∉ p := by simpa using noNul
    cases n with
    | zero => rfl
    | succ n =>
      rw [List.cons_append, memfind, strnlen, zero, if_neg (Ne.symm nonzero),
        if_pos (Ne.symm nonzero), ih later]

/-- The scans of a string find the first occurrence of a byte, whatever comes after its NUL, and
where there is none `strchr` has no place to return; `memfind` takes an `int` and compares its
lowest byte. -/
theorem scans_agree (s : CString) (tail : List UInt8) (c : Int) :
    memfind (s.bytes ++ 0 :: tail) c s.bytes.length = .ok (s.bytes.idxOf (UInt8.ofInt c)) ∧
      strfind (s.bytes ++ 0 :: tail) (UInt8.ofInt c) = .ok (s.bytes.idxOf (UInt8.ofInt c)) ∧
      strchr (s.bytes ++ 0 :: tail) (UInt8.ofInt c) =
        .ok (if UInt8.ofInt c ∈ s.bytes then some (s.bytes.idxOf (UInt8.ofInt c)) else none) ∧
      ∀ n, memfind (s.bytes ++ 0 :: tail) 0 n = strnlen (s.bytes ++ 0 :: tail) n ∧
        (s.bytes.length ≤ n →
          strnlen (s.bytes ++ 0 :: tail) n = strlen (s.bytes ++ 0 :: tail)) := by
  refine ⟨memfind_idxOf _ _ c, strfind_idxOf s.noNul tail _, ?_, fun n =>
    ⟨memfind_strnlen s.noNul tail n, fun long => ?_⟩⟩
  · rw [strchr_terminated s.noNul, idxOf?_eq]
    exact congrArg Except.ok (if_congr List.idxOf_lt_length_iff rfl rfl)
  · rw [strnlen_eq _ n (.inl (by simp)), takeWhile_nul s.noNul, strlen_terminated s.noNul,
      Nat.min_eq_left long]

end Scans

end Jos
