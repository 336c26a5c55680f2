import Jos.Kern.ConsoleInput
import Jos.Kern.ConsoleOutput
import Jos.Lib.String

/-!
# kern/console.c: the keyboard

The i8042 controller is the queue of the bytes that wait at its data port, each from the
keyboard or from the mouse. The first one sets the status, and leaves the queue when it is read.
-/
namespace Jos

open Library

/-! ### inc/kbdreg.h -/

def KEY_HOME : UInt8 := 0xE0
def KEY_END : UInt8 := 0xE1
def KEY_UP : UInt8 := 0xE2
def KEY_DN : UInt8 := 0xE3
def KEY_LF : UInt8 := 0xE4
def KEY_RT : UInt8 := 0xE5
def KEY_PGUP : UInt8 := 0xE6
def KEY_PGDN : UInt8 := 0xE7
def KEY_INS : UInt8 := 0xE8
def KEY_DEL : UInt8 := 0xE9

def KBS_DIB : UInt8 := 0x01
def KBS_TERR : UInt8 := 0x20

/-! ### The controller -/

inductive Source where
  | keyboard | mouse
  deriving DecidableEq

/-- The bytes at the data port, oldest first. -/
abbrev I8042 := List (Source × UInt8)

/-- `inb(KBSTATP)` -/
def I8042.stat : I8042 → UInt8
  | [] => 0
  | (.keyboard, _) :: _ => KBS_DIB
  | (.mouse, _) :: _ => KBS_DIB ||| KBS_TERR

/-- `inb(KBDATAP)` -/
def I8042.inb : I8042 → UInt8 × I8042
  | [] => (0, [])
  | (_, b) :: port => (b, port)

/-! ### The tables -/

def NO : UInt8 := 0

def SHIFT : BitVec 32 := 1 <<< 0
def CTL : BitVec 32 := 1 <<< 1
def ALT : BitVec 32 := 1 <<< 2
def CAPSLOCK : BitVec 32 := 1 <<< 3
def NUMLOCK : BitVec 32 := 1 <<< 4
def SCROLLLOCK : BitVec 32 := 1 <<< 5
def E0ESC : BitVec 32 := 1 <<< 6

/-- An array whose first elements are `rows`, with some others given by their index. The rest of
it is zero. -/
def designated {α : Type} (zero : α) (rows : List α) (others : List (Nat × α)) (i : UInt8) : α :=
  ((others.lookup i.toNat).orElse fun _ => rows[i.toNat]?).getD zero

/-- The elements as they are promoted. -/
def shiftcode : UInt8 → BitVec 32 :=
  designated 0 [] [(0x1D, CTL), (0x2A, SHIFT), (0x36, SHIFT), (0x38, ALT), (0x9D, CTL), (0xB8, ALT)]

def togglecode : UInt8 → BitVec 32 :=
  designated 0 [] [(0x3A, CAPSLOCK), (0x45, NUMLOCK), (0x46, SCROLLLOCK)]

def normalmap : UInt8 → UInt8 :=
  designated NO
    ([NO, 0x1B] ++ literal "123456" ++ -- 0x00
      literal "7890-=\x08\t" ++
      literal "qwertyui" ++ -- 0x10
      literal "op[]\n" ++ [NO] ++ literal "as" ++
      literal "dfghjkl;" ++ -- 0x20
      literal "'`" ++ [NO] ++ literal "\\zxcv" ++
      literal "bnm,./" ++ [NO] ++ literal "*" ++ -- 0x30
      [NO] ++ literal " " ++ [NO, NO, NO, NO, NO, NO] ++
      [NO, NO, NO, NO, NO, NO, NO] ++ literal "7" ++ -- 0x40
      literal "89-456+1" ++
      literal "230." ++ [NO, NO, NO, NO]) -- 0x50
    [(0xC7, KEY_HOME), (0x9C, '\n'.toUInt8), (0xB5, '/'.toUInt8), (0xC8, KEY_UP),
      (0xC9, KEY_PGUP), (0xCB, KEY_LF), (0xCD, KEY_RT), (0xCF, KEY_END),
      (0xD0, KEY_DN), (0xD1, KEY_PGDN), (0xD2, KEY_INS), (0xD3, KEY_DEL)]

def shiftmap : UInt8 → UInt8 :=
  designated NO
    ([NO, 0x1B] ++ literal "!@#$%^" ++ -- 0x00
      literal "&*()_+\x08\t" ++
      literal "QWERTYUI" ++ -- 0x10
      literal "OP\x7b\x7d\n" ++ [NO] ++ literal "AS" ++
      literal "DFGHJKL:" ++ -- 0x20
      literal "\"~" ++ [NO] ++ literal "|ZXCV" ++
      literal "BNM<>?" ++ [NO] ++ literal "*" ++ -- 0x30
      [NO] ++ literal " " ++ [NO, NO, NO, NO, NO, NO] ++
      [NO, NO, NO, NO, NO, NO, NO] ++ literal "7" ++ -- 0x40
      literal "89-456+1" ++
      literal "230." ++ [NO, NO, NO, NO]) -- 0x50
    [(0xC7, KEY_HOME), (0x9C, '\n'.toUInt8), (0xB5, '/'.toUInt8), (0xC8, KEY_UP),
      (0xC9, KEY_PGUP), (0xCB, KEY_LF), (0xCD, KEY_RT), (0xCF, KEY_END),
      (0xD0, KEY_DN), (0xD1, KEY_PGDN), (0xD2, KEY_INS), (0xD3, KEY_DEL)]

/-- `#define C(x) (x - '@')` -/
def C (x : Char) : UInt8 := x.toUInt8 - '@'.toUInt8

def ctlmap : UInt8 → UInt8 :=
  designated NO
    ([NO, NO, NO, NO, NO, NO, NO, NO,
      NO, NO, NO, NO, NO, NO, NO, NO,
      C 'Q', C 'W', C 'E', C 'R', C 'T', C 'Y', C 'U', C 'I',
      C 'O', C 'P', NO, NO, '\r'.toUInt8, NO, C 'A', C 'S',
      C 'D', C 'F', C 'G', C 'H', C 'J', C 'K', C 'L', NO,
      NO, NO, NO, C '\\', C 'Z', C 'X', C 'C', C 'V',
      C 'B', C 'N', C 'M', NO, NO, C '/', NO, NO])
    [(0x97, KEY_HOME),
      (0xB5, C '/'), (0xC8, KEY_UP),
      (0xC9, KEY_PGUP), (0xCB, KEY_LF),
      (0xCD, KEY_RT), (0xCF, KEY_END),
      (0xD0, KEY_DN), (0xD1, KEY_PGDN),
      (0xD2, KEY_INS), (0xD3, KEY_DEL)]

/-- `charcode[i]`, where `i` is at most 3. -/
def charcode (i : BitVec 32) : UInt8 → UInt8 :=
  if i = 0 then normalmap else if i = 1 then shiftmap else ctlmap

/-! ### kbd_proc_data -/

/-- The case of a letter under caps lock. -/
def swapCase (c : Int) : Int :=
  if ord 'a' ≤ c ∧ c ≤ ord 'z' then c + (ord 'A' - ord 'a')
  else if ord 'A' ≤ c ∧ c ≤ ord 'Z' then c + (ord 'a' - ord 'A')
  else c

/-- The character of a key that is pressed, and the shift state after it. -/
def pressed (shift : BitVec 32) (data : UInt8) : Int × BitVec 32 :=
  let shift := shift ||| shiftcode data
  let shift := shift ^^^ togglecode data
  let c : Int := (charcode (shift &&& (CTL ||| SHIFT)) data).toNat
  (if shift &&& CAPSLOCK ≠ 0 then swapCase c else c, shift)

/-- What `kbd_proc_data` makes of the byte that it has read. -/
def decode (shift : BitVec 32) (data : UInt8) : Int × BitVec 32 :=
  if data = 0xE0 then
    -- E0 escape character
    (0, shift ||| E0ESC)
  else if data &&& 0x80 ≠ 0 then
    -- Key released
    let data := if shift &&& E0ESC ≠ 0 then data else data &&& 0x7F
    (0, shift &&& ~~~(shiftcode data ||| E0ESC))
  else if shift &&& E0ESC ≠ 0 then
    -- Last character was an E0 escape; or with 0x80
    pressed (shift &&& ~~~E0ESC) (data ||| 0x80)
  else pressed shift data

/-- What the driver does besides returning a character. -/
inductive KbdEffect where
  | cprintf (text : List UInt8)
  | outb (o : Outb)
  deriving DecidableEq

/-- The static `shift`, the controller, and what has been done so far. -/
structure Keyboard where
  shift : BitVec 32
  port : I8042
  effects : List KbdEffect

/-- Process special keys; the character of a byte that ends no key is 0. -/
def Keyboard.special (k : Keyboard) (c : Int) : Keyboard :=
  -- Ctrl-Alt-Del: reboot
  if ~~~k.shift &&& (CTL ||| ALT) = 0 ∧ c = KEY_DEL.toNat then
    { k with effects := k.effects ++ [.cprintf (literal "Rebooting!\n"), .outb ⟨0x92, 0x3⟩] }
  else k

/-- Get data from the keyboard. If we finish a character, return it. Else 0. Return -1 if no
data. -/
def kbdProcData (k : Keyboard) : Int × Keyboard :=
  let stat := k.port.stat
  if stat &&& KBS_DIB = 0 then (-1, k)
  -- Ignore data from mouse.
  else if stat &&& KBS_TERR ≠ 0 then (-1, k)
  else
    let (data, port) := k.port.inb
    let (c, shift) := decode k.shift data
    (c, Keyboard.special { k with shift, port } c)

/-- `kbd_intr()` -/
def Keyboard.kbdIntr (k : Keyboard) (cons : Cons) : Exec (Keyboard × Cons) :=
  consIntr kbdProcData (k.port.length + 1) k cons

end Jos
