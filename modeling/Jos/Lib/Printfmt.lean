import Jos.Library.Output
import Jos.Lib.String

/-!
# lib/printfmt.c

The putdat of a printing function is threaded through it. A format pointer is the bytes that
it has passed, last one first, and those that are ahead, so that moving it back over the
format is possible; a step off either end is a read outside the format.
-/
namespace Jos

open Library

variable {σ : Type}

/-! ### Arguments -/

/-- An argument as the caller pushes it: one word, two, or the address of an object. -/
inductive Arg where
  | word (v : BitVec 32)
  | dword (v : BitVec 64)
  | ptr (addr : BitVec 32) (obj : List UInt8)
  deriving DecidableEq

abbrev VaList := List Arg

/-- `va_arg(ap, int)`, and every other type of one word that is not dereferenced. -/
def vaInt : VaList → Exec (BitVec 32 × VaList)
  | .word v :: ap => .ok (v, ap)
  | .ptr addr _ :: ap => .ok (addr, ap)
  | _ => .error .badArgument

/-- `va_arg(ap, long long)` -/
def vaLongLong : VaList → Exec (BitVec 64 × VaList)
  | .dword v :: ap => .ok (v, ap)
  | _ => .error .badArgument

/-- `va_arg(ap, char *)`; the null pointer is `none`. -/
def vaString : VaList → Exec (Option (List UInt8) × VaList)
  | .ptr addr obj :: ap => .ok (if addr = 0 then none else some obj, ap)
  | .word v :: ap => if v = 0 then .ok (none, ap) else .error .badArgument
  | _ => .error .badArgument

/-- `long` is as wide as `int`. -/
def getuint (ap : VaList) (lflag : Nat) : Exec (BitVec 64 × VaList) :=
  if lflag ≥ 2 then vaLongLong ap
  else do
    let (v, ap) ← vaInt ap
    pure (v.zeroExtend 64, ap)

def getint (ap : VaList) (lflag : Nat) : Exec (BitVec 64 × VaList) :=
  if lflag ≥ 2 then vaLongLong ap
  else do
    let (v, ap) ← vaInt ap
    pure (v.signExtend 64, ap)

/-- The two take the same argument and differ in how an `int` is extended. -/
theorem getint_eq (ap : VaList) (lflag : Nat) : getint ap lflag =
    (fun r => (if lflag ≥ 2 then r.1 else (r.1.setWidth 32).signExtend 64, r.2)) <$>
      getuint ap lflag := by
  unfold getint getuint
  split
  · exact (id_map _).symm
  · cases vaInt ap with
    | error e => rfl
    | ok r => simp

/-! ### Numbers -/

structure Base where
  value : Nat
  two_le : 2 ≤ value
  le_sixteen : value ≤ 16

def Base.octal : Base := ⟨8, by decide, by decide⟩
def Base.decimal : Base := ⟨10, by decide, by decide⟩
def Base.hexadecimal : Base := ⟨16, by decide, by decide⟩

/-- `for (; n > 0; n--) putch(padc, putdat)` -/
def pad (putch : Putch σ) (padc : Int) : Nat → σ → Exec σ
  | 0, d => pure d
  | n + 1, d => do
    let d ← putch padc d
    pad putch padc n d

def printnum (putch : Putch σ) (num : Nat) (base : Base) (width padc : Int) (d : σ) : Exec σ := do
  -- first recursively print all preceding (more significant) digits
  let d ← if num ≥ base.value then
      printnum putch (num / base.value) base (int32 (width - 1)) padc d
    else
      -- print any needed pad characters before first digit
      pad putch padc (int32 (width - 1)).toNat d
  -- then print this (the least significant) digit
  let digit ← readAt (literal "0123456789abcdef") (num % base.value : Nat)
  putch (charInt digit) d
termination_by num
decreasing_by
  have := base.two_le
  exact Nat.div_lt_self (by omega) (by omega)

/-! ### Escape sequences -/

/-- The conversions that consume or print something. -/
inductive Conversion where
  | char | error | string | decimal | unsigned | octal | pointer | hex | percent
  deriving DecidableEq

/-- The labels of the switch. -/
inductive Label where
  | minus | zero | digit | star | dot | alt | long
  | conversion (c : Conversion)
  | default
  deriving DecidableEq

def switchLabel (ch : UInt8) : Label :=
  if ch = '-'.toUInt8 then .minus
  else if ch = '0'.toUInt8 then .zero
  else if '1'.toUInt8 ≤ ch ∧ ch ≤ '9'.toUInt8 then .digit
  else if ch = '*'.toUInt8 then .star
  else if ch = '.'.toUInt8 then .dot
  else if ch = '#'.toUInt8 then .alt
  else if ch = 'l'.toUInt8 then .long
  else if ch = 'c'.toUInt8 then .conversion .char
  else if ch = 'e'.toUInt8 then .conversion .error
  else if ch = 's'.toUInt8 then .conversion .string
  else if ch = 'd'.toUInt8 then .conversion .decimal
  else if ch = 'u'.toUInt8 then .conversion .unsigned
  else if ch = 'o'.toUInt8 then .conversion .octal
  else if ch = 'p'.toUInt8 then .conversion .pointer
  else if ch = 'x'.toUInt8 then .conversion .hex
  else if ch = '%'.toUInt8 then .conversion .percent
  else .default

/-- The locals that an escape sequence sets, with the values they have at its start. -/
structure Flags where
  padc : Int := ord ' '
  width : Int := -1
  precision : Int := -1
  lflag : Nat := 0
  altflag : Bool := false

def Flags.dot (flags : Flags) : Flags :=
  if flags.width < 0 then { flags with width := 0 } else flags

def Flags.processPrecision (flags : Flags) : Flags :=
  if flags.width < 0 then { flags with width := flags.precision, precision := -1 } else flags

@[simp] theorem Flags.dot_lflag (flags : Flags) : flags.dot.lflag = flags.lflag := by
  unfold dot
  split <;> rfl

@[simp] theorem Flags.processPrecision_lflag (flags : Flags) :
    flags.processPrecision.lflag = flags.lflag := by
  unfold processPrecision
  split <;> rfl

@[simp] theorem Flags.processPrecision_padc (flags : Flags) :
    flags.processPrecision.padc = flags.padc := by
  unfold processPrecision
  split <;> rfl

structure FmtPtr where
  passed : List UInt8
  ahead : List UInt8

/-- `*(unsigned char *) fmt++` -/
def FmtPtr.next : FmtPtr → Exec (UInt8 × FmtPtr)
  | ⟨passed, ch :: ahead⟩ => .ok (ch, ⟨ch :: passed, ahead⟩)
  | ⟨_, []⟩ => .error .outOfBounds

/-- `for (fmt--; fmt[-1] != '%'; fmt--)` -/
def FmtPtr.rewind : FmtPtr → Exec FmtPtr
  | ⟨[], _⟩ => .error .outOfBounds
  | ⟨ch :: passed, ahead⟩ => back passed (ch :: ahead)
where
  back : List UInt8 → List UInt8 → Exec FmtPtr
    | [], _ => .error .outOfBounds
    | ch :: passed, ahead =>
      if ch ≠ '%'.toUInt8 then back passed (ch :: ahead) else .ok ⟨ch :: passed, ahead⟩

/-- The loop over the digits of a width, the digit `ch` being the last one read. -/
def readPrecision (precision ch : Int) : List UInt8 → List UInt8 → Exec (Int × FmtPtr)
  | _, [] => .error .outOfBounds
  | passed, b :: ahead =>
    let precision := int32 (precision * 10 + ch - ord '0')
    let ch := charInt b
    if ch < ord '0' ∨ ch > ord '9' then .ok (precision, ⟨passed, b :: ahead⟩)
    else readPrecision precision ch (b :: passed) ahead

/-- The switch up to the character that ends the escape: a conversion, or `none` for the
default case. -/
def reswitch : Nat → FmtPtr → Flags → VaList →
    Exec (Option Conversion × FmtPtr × Flags × VaList)
  | 0, _, _, _ => .error .outOfFuel
  | fuel + 1, fmt, flags, ap => do
    let (ch, fmt) ← fmt.next
    match switchLabel ch with
    | .minus => reswitch fuel fmt { flags with padc := ord '-' } ap
    | .zero => reswitch fuel fmt { flags with padc := ord '0' } ap
    | .digit => do
      let (precision, fmt) ← readPrecision 0 ch.toNat fmt.passed fmt.ahead
      reswitch fuel fmt (Flags.processPrecision { flags with precision }) ap
    | .star => do
      let (v, ap) ← vaInt ap
      reswitch fuel fmt (Flags.processPrecision { flags with precision := v.toInt }) ap
    | .dot => reswitch fuel fmt flags.dot ap
    | .alt => reswitch fuel fmt { flags with altflag := true } ap
    | .long => reswitch fuel fmt { flags with lflag := flags.lflag + 1 } ap
    | .conversion c => pure (some c, fmt, flags, ap)
    | .default => pure (none, fmt, flags, ap)

/-! ### Conversions -/

def MAXERROR : Int := 7

def errorString : List (Option (List UInt8)) :=
  [none,
   some (literal "unspecified error"),
   some (literal "bad environment"),
   some (literal "invalid parameter"),
   some (literal "out of memory"),
   some (literal "out of environments"),
   some (literal "segmentation fault")]

/-- `case 'e'`; any address but null does for a string of the table. -/
def putError (printfmt : List UInt8 → σ → VaList → Exec (σ × VaList)) (err : Int) (d : σ) :
    Exec σ := do
  let err := if err < 0 then int32 (-err) else err
  let unknown := (·.1) <$> printfmt (literal "error %d" ++ [0]) d [.word (.ofInt 32 err)]
  if err ≥ MAXERROR then unknown
  else
    match ← readAt errorString err with
    | none => unknown
    | some p => (·.1) <$> printfmt (literal "%s" ++ [0]) d [.ptr 1 (p ++ [0])]

/-- The loop over the characters of a string, which counts `width` down. -/
def putChars (putch : Putch σ) (altflag : Bool) (precision width : Int) :
    List UInt8 → σ → Exec (Int × σ)
  | [], _ => .error .outOfBounds
  | b :: p, d => do
    let ch := charInt b
    if ch ≠ 0 ∧ (precision < 0 ∨ precision - 1 ≥ 0) then
      let precision := if precision < 0 then precision else precision - 1
      let d ← putch (if altflag ∧ (ch < ord ' ' ∨ ch > ord '~') then ord '?' else ch) d
      putChars putch altflag precision (int32 (width - 1)) p d
    else pure (width, d)

/-- `case 's'` -/
def putString (putch : Putch σ) (flags : Flags) (p : Option (List UInt8)) (d : σ) : Exec σ := do
  let p := p.getD (literal "(null)" ++ [0])
  let (width, d) ←
    if flags.width > 0 ∧ flags.padc ≠ ord '-' then do
      let n ← strnlen p (flags.precision % 4294967296).toNat
      let width := int32 (flags.width - n)
      let d ← pad putch flags.padc width.toNat d
      pure (min width 0, d)
    else pure (flags.width, d)
  let (width, d) ← putChars putch flags.altflag flags.precision width p d
  pad putch (ord ' ') width.toNat d

/-- `num` as a signed number: the sign, then `number:` -/
def putSigned (putch : Putch σ) (num : BitVec 64) (base : Base) (flags : Flags) (d : σ) :
    Exec σ :=
  if num.toInt < 0 then do
    let d ← putch (ord '-') d
    printnum putch (-num).toNat base flags.width flags.padc d
  else printnum putch num.toNat base flags.width flags.padc d

/-- The cases of the switch that print. -/
def convert (printfmt : List UInt8 → σ → VaList → Exec (σ × VaList)) (putch : Putch σ)
    (flags : Flags) (d : σ) (ap : VaList) : Conversion → Exec (σ × VaList)
  | .char => do
    let (v, ap) ← vaInt ap
    let d ← putch v.toInt d
    pure (d, ap)
  | .error => do
    let (v, ap) ← vaInt ap
    let d ← putError printfmt v.toInt d
    pure (d, ap)
  | .string => do
    let (p, ap) ← vaString ap
    let d ← putString putch flags p d
    pure (d, ap)
  | .decimal => do
    let (num, ap) ← getint ap flags.lflag
    let d ← putSigned putch num .decimal flags d
    pure (d, ap)
  | .unsigned => do
    let (num, ap) ← getuint ap flags.lflag
    let d ← printnum putch num.toNat .decimal flags.width flags.padc d
    pure (d, ap)
  | .octal => do
    let (num, ap) ← getint ap flags.lflag
    let d ← putSigned putch num .octal flags d
    pure (d, ap)
  | .pointer => do
    let d ← putch (ord '0') d
    let d ← putch (ord 'x') d
    let (v, ap) ← vaInt ap
    let d ← printnum putch v.toNat .hexadecimal flags.width flags.padc d
    pure (d, ap)
  | .hex => do
    let (num, ap) ← getuint ap flags.lflag
    let d ← printnum putch num.toNat .hexadecimal flags.width flags.padc d
    pure (d, ap)
  | .percent => do
    let d ← putch (ord '%') d
    pure (d, ap)

/-! ### The main function -/

/-- The outer loop, with what is left of the arguments at its end. -/
def vprintfmtLoop (printfmt : List UInt8 → σ → VaList → Exec (σ × VaList)) (putch : Putch σ) :
    Nat → FmtPtr → σ → VaList → Exec (σ × VaList)
  | 0, _, _, _ => .error .outOfFuel
  | fuel + 1, fmt, d, ap => do
    let (ch, fmt) ← fmt.next
    if ch ≠ '%'.toUInt8 then
      if ch = 0 then pure (d, ap)
      else
        let d ← putch ch.toNat d
        vprintfmtLoop printfmt putch fuel fmt d ap
    else
      -- Process a %-escape sequence
      let (conversion, fmt, flags, ap) ← reswitch (fmt.ahead.length + 1) fmt {} ap
      match conversion with
      | some c => do
        let (d, ap) ← convert printfmt putch flags d ap c
        vprintfmtLoop printfmt putch fuel fmt d ap
      | none => do
        -- unrecognized escape sequence - just print it literally
        let d ← putch (ord '%') d
        let fmt ← fmt.rewind
        vprintfmtLoop printfmt putch fuel fmt d ap

/-- `vprintfmt` with its calls of `printfmt` nested at most `depth` deep. -/
def vprintfmtNested (putch : Putch σ) :
    Nat → List UInt8 → σ → VaList → Exec (σ × VaList)
  | 0, _, _, _ => .error .outOfFuel
  | depth + 1, fmt, d, ap =>
    vprintfmtLoop (vprintfmtNested putch depth) putch (fmt.length + 1) ⟨[], fmt⟩ d ap

/-- The formats that `%e` prints with have no `%e` in them. -/
def vprintfmt (putch : Putch σ) (d : σ) (fmt : List UInt8) (ap : VaList) :
    Exec (σ × VaList) :=
  vprintfmtNested putch 2 fmt d ap

/-! ### Printing to a buffer -/

def E_INVAL : Int := 3

/-- The buffer object, and `buf` and `ebuf` as offsets into it. -/
structure Sprintbuf where
  object : List UInt8
  buf : Int
  ebuf : Int
  cnt : Int

def sprintputch (ch : Int) (b : Sprintbuf) : Exec Sprintbuf :=
  let b := { b with cnt := int32 (b.cnt + 1) }
  if b.buf < b.ebuf then do
    let object ← writeAt b.object b.buf (UInt8.ofInt ch)
    pure { b with object, buf := b.buf + 1 }
  else pure b

/-- The result and the buffer after the call; a null `buf` is `none`. -/
def vsnprintf (buf : Option (List UInt8)) (n : Int) (fmt : List UInt8) (ap : VaList) :
    Exec (Int × Option (List UInt8)) :=
  match buf with
  | none => pure (-E_INVAL, none)
  | some object =>
    if n < 1 then pure (-E_INVAL, some object)
    else do
      -- print the string to the buffer
      let (b, _) ← vprintfmt sprintputch { object, buf := 0, ebuf := n - 1, cnt := 0 } fmt ap
      -- null terminate the buffer
      let object ← writeAt b.object b.buf 0
      pure (b.cnt, some object)

def snprintf (buf : Option (List UInt8)) (n : Int) (fmt : List UInt8) (args : VaList) :
    Exec (Int × Option (List UInt8)) :=
  vsnprintf buf n fmt args

end Jos
