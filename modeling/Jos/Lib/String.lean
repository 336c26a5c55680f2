import Jos.Library.Exec

/-!
# lib/string.c

A character object is the list of its bytes, the terminating NUL included, and a pointer
into it is what remains of the object from there on: a scan that runs past the end of the
list is a read outside the object.
-/
namespace Jos

open Library

/-- The code of a character constant. -/
def ord (c : Char) : Int := c.toNat

/-- A byte string as C can hold it: no NUL inside, and small enough that the object with its
NUL does not exceed the largest size an object can have. -/
structure CString where
  bytes : List UInt8
  noNul : 0 ∉ bytes
  fits : bytes.length < 2147483647

/-- The bytes of a string literal, without its NUL. -/
def literal (s : String) : List UInt8 := s.toList.map Char.toUInt8

/-- The object that holds the string. -/
def CString.object (s : CString) : List UInt8 := s.bytes ++ [0]

def strlen : List UInt8 → Exec Nat
  | [] => .error .outOfBounds
  | b :: s => if b ≠ 0 then (· + 1) <$> strlen s else .ok 0

def strnlen : List UInt8 → Nat → Exec Nat
  | _, 0 => .ok 0
  | [], _ + 1 => .error .outOfBounds
  | b :: s, size + 1 => if b ≠ 0 then (· + 1) <$> strnlen s size else .ok 0

/-- The loop of `strcpy` from index `i` on, with `src` the bytes from `*src` on. -/
def strcpyFrom : List UInt8 → Nat → List UInt8 → Exec (List UInt8)
  | _, _, [] => .error .outOfBounds
  | dst, i, b :: src => do
    let dst ← writeAt dst i b
    if b ≠ 0 then strcpyFrom dst (i + 1) src else pure dst

/-- The object `dst` after `strcpy` to its start. -/
def strcpy (dst src : List UInt8) : Exec (List UInt8) := strcpyFrom dst 0 src

def strcat (dst src : List UInt8) : Exec (List UInt8) := do
  let len ← strlen dst
  strcpyFrom dst len src

/-- The loop of `strncpy` from index `i` on, with `src` the bytes from `*src` on. -/
def strncpyFrom : Nat → List UInt8 → Nat → List UInt8 → Exec (List UInt8)
  | 0, dst, _, _ => .ok dst
  | n + 1, dst, i, src => do
    let b ← readAt src 0
    let dst ← writeAt dst i b
    -- If strlen(src) < size, null-pad 'dst' out to 'size' chars
    strncpyFrom n dst (i + 1) (if b ≠ 0 then src.drop 1 else src)

/-- The object `dst` after `strncpy` to its start. -/
def strncpy (dst src : List UInt8) (size : Nat) : Exec (List UInt8) := strncpyFrom size dst 0 src

/-- The loop of `strlcpy` from index `i` on, once `size` has been decremented. -/
def strlcpyFrom : List UInt8 → Nat → List UInt8 → Nat → Exec (List UInt8 × Nat)
  | dst, i, _, 0 => .ok (dst, i)
  | _, _, [], _ + 1 => .error .outOfBounds
  | dst, i, b :: src, size + 1 =>
    if b ≠ 0 then do
      let dst ← writeAt dst i b
      strlcpyFrom dst (i + 1) src size
    else .ok (dst, i)

/-- The object `dst`, and the result. -/
def strlcpy (dst src : List UInt8) (size : Nat) : Exec (List UInt8 × Nat) :=
  if size > 0 then do
    let (dst, i) ← strlcpyFrom dst 0 src (size - 1)
    let dst ← writeAt dst i 0
    pure (dst, i)
  else pure (dst, 0)

/-- The plain `char`s that the loop compares are equal when their bytes are, by `charInt_inj`. -/
def strcmp : List UInt8 → List UInt8 → Exec Int
  | b :: p, c :: q =>
    if b ≠ 0 ∧ b = c then strcmp p q else .ok ((b.toNat : Int) - (c.toNat : Int))
  | _, _ => .error .outOfBounds

def strncmp : List UInt8 → List UInt8 → Nat → Exec Int
  | _, _, 0 => .ok 0
  | b :: p, c :: q, n + 1 =>
    if charInt b ≠ 0 ∧ charInt b = charInt c then strncmp p q n
    else .ok ((b.toNat : Int) - (c.toNat : Int))
  | _, _, _ + 1 => .error .outOfBounds

/-- The offset of the pointer that `strchr` returns. -/
def strchr : List UInt8 → UInt8 → Exec (Option Nat)
  | [], _ => .error .outOfBounds
  | b :: s, c =>
    if b ≠ 0 then (if b = c then .ok (some 0) else (·.map (· + 1)) <$> strchr s c) else .ok none

/-- The offset of the pointer that `strfind` returns. -/
def strfind : List UInt8 → UInt8 → Exec Nat
  | [], _ => .error .outOfBounds
  | b :: s, c => if b ≠ 0 then (if b = c then .ok 0 else (· + 1) <$> strfind s c) else .ok 0

/-- The pointers are of type `uint8_t *` here. -/
def memcmp : List UInt8 → List UInt8 → Nat → Exec Int
  | _, _, 0 => .ok 0
  | b :: s1, c :: s2, n + 1 =>
    if b ≠ c then .ok ((b.toNat : Int) - (c.toNat : Int)) else memcmp s1 s2 n
  | _, _, _ + 1 => .error .outOfBounds

/-- The offset of the pointer that `memfind` returns. -/
def memfind : List UInt8 → Int → Nat → Exec Nat
  | _, _, 0 => .ok 0
  | [], _, _ + 1 => .error .outOfBounds
  | b :: s, c, n + 1 => if b = UInt8.ofInt c then .ok 0 else (· + 1) <$> memfind s c n

/-! ### strtol -/

def skipBlanks : List UInt8 → Exec (List UInt8)
  | [] => .error .outOfBounds
  | b :: s => if charInt b = ord ' ' ∨ charInt b = ord '\t' then skipBlanks s else .ok (b :: s)

/-- The value of a digit or a letter, which need not be below the base. -/
def digitValue (c : Int) : Option Int :=
  if c ≥ ord '0' ∧ c ≤ ord '9' then some (c - ord '0')
  else if c ≥ ord 'a' ∧ c ≤ ord 'z' then some (c - ord 'a' + 10)
  else if c ≥ ord 'A' ∧ c ≤ ord 'Z' then some (c - ord 'A' + 10)
  else none

/-- The loop over the digits, with a `long` of 32 bits. -/
def strtolDigits (base : Int) : List UInt8 → Int → Exec (Int × List UInt8)
  | [], _ => .error .outOfBounds
  | b :: s, val =>
    match digitValue (charInt b) with
    | none => .ok (val, b :: s)
    | some dig =>
      if dig ≥ base then .ok (val, b :: s)
      else strtolDigits base s (int32 (val * base + dig))

/-- `s[0] == '0' && s[1] == 'x'` -/
def hexPrefix (s : List UInt8) : Exec Bool := do
  let c ← readAt s 0
  if charInt c = ord '0' then
    let c ← readAt s 1
    pure (charInt c = ord 'x')
  else pure false

/-- The prefix of the number, and the base that it leaves. -/
def strtolBase (base : Int) (s : List UInt8) : Exec (Int × List UInt8) := do
  let hex ← if base = 0 ∨ base = 16 then hexPrefix s else pure false
  let c ← readAt s 0
  if hex then pure (16, s.drop 2)
  else if base = 0 ∧ charInt c = ord '0' then pure (8, s.drop 1)
  else if base = 0 then pure (10, s)
  else pure (base, s)

/-- The result and the offset of `*endptr`. -/
def strtol (s : List UInt8) (base : Int) : Exec (Int × Nat) := do
  -- gobble initial whitespace
  let p ← skipBlanks s
  -- plus/minus sign
  let c ← readAt p 0
  let neg := charInt c = ord '-'
  let p := if charInt c = ord '+' ∨ neg then p.drop 1 else p
  -- hex or octal base prefix
  let (base, p) ← strtolBase base p
  -- digits
  let (val, p) ← strtolDigits base p 0
  pure (if neg then int32 (-val) else val, s.length - p.length)

/-! ### Plain characters -/

/-- Two plain `char`s are equal when their bytes are. -/
theorem charInt_inj {b c : UInt8} : charInt b = charInt c ↔ b = c := by
  have bBound := b.toNat_lt
  have cBound := c.toNat_lt
  rw [← UInt8.toNat_inj]
  unfold charInt
  split <;> split <;> omega

theorem charInt_eq_zero_iff (b : UInt8) : charInt b = 0 ↔ b = 0 := charInt_inj (c := 0)

/-! ### Scans of terminated strings -/

theorem takeWhile_nul {p : List UInt8} (noNul : 0 ∉ p) (tail : List UInt8) :
    (p ++ 0 :: tail).takeWhile (· != 0) = p := by
  have nonzero : ∀ b ∈ p, (b != 0) = true := by
    intro b member
    rw [bne_iff_ne]
    rintro rfl
    exact noNul member
  rw [List.takeWhile_append_of_pos nonzero]
  simp

theorem strnlen_eq (p : List UInt8) (size : Nat) (within : 0 ∈ p ∨ size ≤ p.length) :
    strnlen p size = .ok (min (p.takeWhile (· != 0)).length size) := by
  induction p generalizing size with
  | nil =>
    have zero : size = 0 := by simpa using within
    simp [strnlen, zero]
  | cons b p ih =>
    cases size with
    | zero => simp [strnlen]
    | succ size =>
      by_cases nul : b = 0
      · simp [strnlen, nul]
      · have rest := ih size (within.imp (by simp [Ne.symm nul]) (by simp))
        simp [strnlen, nul, rest, Nat.add_min_add_right]

/-- `strchr` does not find the NUL. -/
theorem strchr_terminated {s : List UInt8} (noNul : 0 ∉ s) (tail : List UInt8) (c : UInt8) :
    strchr (s ++ 0 :: tail) c = .ok (s.idxOf? c) := by
  induction s with
  | nil => rfl
  | cons b s ih =>
    obtain ⟨nonzero, later⟩ : 0 ≠ b ∧ 0 ∉ s := by simpa using noNul
    rw [List.cons_append, strchr, if_pos (Ne.symm nonzero), List.idxOf?_cons]
    by_cases same : b = c
    · rw [if_pos same, if_pos (beq_iff_eq.mpr same)]
    · rw [if_neg same, if_neg (fun equal => same (beq_iff_eq.mp equal)), ih later]
      rfl

/-- `strfind` stops at the first `c`, or at the NUL when there is none before it. -/
theorem strfind_terminated (s : List UInt8) (c : UInt8) (terminated : 0 ∈ s) :
    strfind s c = .ok (s.takeWhile fun b => b ≠ 0 ∧ b ≠ c).length := by
  induction s with
  | nil => simp at terminated
  | cons b s ih =>
    unfold strfind
    by_cases nul : b = 0
    · simp [nul]
    · have later : 0 ∈ s := by simpa [Ne.symm nul] using terminated
      by_cases same : b = c
      · subst same
        simp [nul]
      · simp [nul, same, ih later]

end Jos
