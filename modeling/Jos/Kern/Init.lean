import Jos.Kern.Session

/-!
# kern/init.c

The kernel from the console on: what it prints when it comes up and when it panics, in front of a
session with the monitor.
-/
namespace Jos

open Library

variable (k : Kernel)

/-- `while (1) monitor(NULL)`, for this many rounds. -/
def Kernel.monitorForever (stack : Nat → CommandStack k.symbols) :
    Nat → Nat → List Int → List UInt8 → Console → Exec Monitor
  | 0, _, _, _, _ => .error .outOfFuel
  | rounds + 1, line, input, buf, con => do
    match ← k.monitor stack line input buf con with
    | .reading line ed => pure (.reading line ed)
    | .returned line input buf con => monitorForever stack rounds line input buf con

/-! ### i386_init -/

/-- What `i386_init` prints: the end of `cons_init`, its own line and `test_backtrace(5)`. -/
def Kernel.initPrints (trace : CommandStack k.symbols) (serialExists : Bool) :
    Exec (List Printed) := do
  let warning : List Printed :=
    if serialExists then [] else [⟨literal "Serial port does not exist!\n", []⟩]
  let backtrace := fun _ : List Call => monBacktrace k.symbols.toSymbols trace.mem trace.temp
    (List.ofFn trace.funcName) trace.frames.length
  let test ← testBacktrace backtrace 5 [.i386Init]
  pure (warning ++ ⟨literal "\n6828 decimal is %o octal!\n", [.word 6828]⟩ :: test)

/-- `i386_init` with the display as `cga_init` has found it; `trace` is the stack under
`test_backtrace`, and `stack` those under the commands of the monitor. -/
def Kernel.i386Init (trace : CommandStack k.symbols) (stack : Nat → CommandStack k.symbols)
    (serialExists : Bool) (input : List Int) (buf : List UInt8) (con : Console) : Exec Monitor := do
  let printed ← k.initPrints trace serialExists
  let con ← printAll printed con
  k.monitorForever stack 1 0 input buf con

/-! ### _panic and _warn -/

/-- Where a panic or a warning comes from, and its message. -/
structure Report where
  file : CString
  place : BitVec 32
  line : BitVec 32
  fmt : List UInt8
  args : VaList

/-- The three calls that print a report under a title. -/
def Report.prints (head : List UInt8) (r : Report) : List Printed :=
  [⟨head ++ literal " at %s:%d: ", [.ptr r.place r.file.object, .word r.line]⟩, ⟨r.fmt, r.args⟩,
    ⟨literal "\n", []⟩]

/-- `_warn` -/
def warn (r : Report) (con : Console) : Exec Console :=
  printAll (r.prints (literal "kernel warning")) con

/-! ### The texts -/

/-- A line of `test_backtrace`. -/
def testLine (head : List UInt8) (x : Nat) : List Int :=
  plainText (head ++ literal " test_backtrace ") ++
    (digitsText .decimal x ++ plainText (literal "\n"))

/-- The lines of `test_backtrace(5)`. -/
def Kernel.testText (trace : CommandStack k.symbols) : List Int :=
  (List.range 6).reverse.flatMap (testLine (literal "entering")) ++
    backtraceText k.symbols.toSymbols trace.mem trace.frames ++
    (List.range 6).flatMap (testLine (literal "leaving"))

def Kernel.initText (trace : CommandStack k.symbols) (serialExists : Bool) : List Int :=
  (if serialExists then [] else plainText (literal "Serial port does not exist!\n")) ++
    (plainText (literal "\n6828 decimal is 15254 octal!\n") ++ k.testText trace)

/-- The head of a report. -/
def Report.origin (head : List UInt8) (r : Report) : List Int :=
  plainText (head ++ literal " at ") ++ (r.file.bytes.map charInt ++
    (plainText (literal ":") ++ (decimalText r.line ++ plainText (literal ": "))))

def Report.text (head : List UInt8) (r : Report) (out : List Int) : List Int :=
  r.origin head ++ out ++ plainText (literal "\n")

theorem test_prints (head fmt : List UInt8) (plain : '%'.toUInt8 ∉ head) (noNul : 0 ∉ fmt)
    (whole : fmt = head ++ literal " test_backtrace " ++ literal "%d\n") {xs : List Nat}
    (small : ∀ x ∈ xs, x < 2 ^ 31) :
    Prints (xs.map fun x => ⟨fmt, [.word (.ofNat 32 x)]⟩) (xs.flatMap (testLine head)) := by
  have split : literal "%d\n" = literal "%d" ++ (literal "\n" ++ []) := by decide
  have plain' : '%'.toUInt8 ∉ head ++ literal " test_backtrace " := by
    rw [List.mem_append, not_or]
    exact ⟨plain, by decide +kernel⟩
  induction xs with
  | nil => exact .nil
  | cons x xs ih =>
    have bound := small x (by simp)
    have value : (BitVec.ofNat 32 x).toNat = x := by
      rw [BitVec.toNat_ofNat, Nat.mod_eq_of_lt (by omega)]
    have number := decimalText_of_lt (v := BitVec.ofNat 32 x) (by omega)
    rw [value] at number
    have line : Renders fmt [.word (.ofNat 32 x)] (testLine head x) := by
      rw [whole, split, testLine, ← number]
      exact .text plain' (.decimal _ (.last (by decide)))
    exact .cons noNul line (ih fun y member => small y (by simp [member]))

theorem Kernel.initPrints_prints (trace : CommandStack k.symbols) (serialExists : Bool) :
    ∃ ps, k.initPrints trace serialExists = .ok ps ∧
      Prints ps (k.initText trace serialExists) := by
  obtain ⟨inner, returned, innerText⟩ := monBacktrace_prints k.symbols trace.mem trace.chain
    (fun ebp member => symbol_kernel k.symbols.headed (trace.kernel ebp member)
      (trace.short ebp member)) trace.funcName (Nat.le_refl _)
  have small : ∀ x ∈ List.range 6, x < 2 ^ 31 := by decide
  have entering : Prints ((List.range 6).reverse.map enteringLine) _ :=
    test_prints (literal "entering") _ (by decide) (by decide +kernel) (by decide +kernel)
      (fun x member => small x (List.mem_reverse.mp member))
  have leaving : Prints ((List.range 6).map leavingLine) _ :=
    test_prints (literal "leaving") _ (by decide) (by decide +kernel) (by decide +kernel) small
  have octal : Prints [⟨literal "\n6828 decimal is %o octal!\n", [.word 6828]⟩]
      (plainText (literal "\n6828 decimal is 15254 octal!\n")) := by
    have whole : literal "\n6828 decimal is %o octal!\n" =
        literal "\n6828 decimal is " ++ (literal "%o" ++ (literal " octal!\n" ++ [])) := by
      decide +kernel
    have text : plainText (literal "\n6828 decimal is 15254 octal!\n") =
        plainText (literal "\n6828 decimal is ") ++
          (octalText 6828 ++ plainText (literal " octal!\n")) := by
      decide +kernel
    rw [text]
    refine .single (by decide +kernel) ?_
    rw [whole]
    exact .text (by decide +kernel) (.octal _ (.last (by decide +kernel)))
  have warning : Prints
      (if serialExists then [] else [⟨literal "Serial port does not exist!\n", []⟩])
      (if serialExists then [] else plainText (literal "Serial port does not exist!\n")) := by
    cases serialExists
    · exact .plain (by decide +kernel) (by decide +kernel)
    · exact .nil
  have whole := warning.append (octal.append ((entering.append innerText).append leaving))
  refine ⟨_, ?_, whole⟩
  rw [Kernel.initPrints, show (5 : Int) = ((5 : Nat) : Int) from rfl, testBacktrace_eq,
    returned]
  rfl

theorem Report.prints_text (head : List UInt8) (plain : '%'.toUInt8 ∉ head) (noNul : 0 ∉ head)
    (r : Report) (nonnull : r.place ≠ 0) {out : List Int} {rest : VaList} (clean : 0 ∉ r.fmt)
    (text : formatText (directives r.fmt) r.args = .ok (out, rest)) :
    Prints (r.prints head) (r.text head out) := by
  have whole : literal " at %s:%d: " = literal " at " ++ (literal "%s" ++ (literal ":" ++
      (literal "%d" ++ (literal ": " ++ [])))) := by
    decide +kernel
  have plain' : '%'.toUInt8 ∉ head ++ literal " at " := by
    rw [List.mem_append, not_or]
    exact ⟨plain, by decide⟩
  have noNul' : 0 ∉ head ++ literal " at %s:%d: " := by
    rw [List.mem_append, not_or]
    exact ⟨noNul, by decide +kernel⟩
  have origin : Renders (head ++ literal " at %s:%d: ") [.ptr r.place r.file.object, .word r.line]
      (r.origin head) := by
    rw [whole, ← List.append_assoc, Report.origin]
    exact .text plain' (.string nonnull r.file.noNul (by have := r.file.fits; omega) []
      (.text (by decide) (.decimal _ (.last (by decide)))))
  have message : Prints [⟨r.fmt, r.args⟩] (out ++ []) := .cons clean text .nil
  rw [List.append_nil] at message
  exact ((Prints.single noNul' origin).append message).append (.plain (by decide) (by decide))

/-- A warning shows its report, and the kernel goes on. -/
theorem warn_shows {r : Report} (nonnull : r.place ≠ 0) (clean : 0 ∉ r.fmt) {out : List Int}
    {rest : VaList} (text : formatText (directives r.fmt) r.args = .ok (out, rest)) {con : Console}
    {s : CrtScreen} (shows : Shows con s) :
    ∃ con', warn r con = .ok con' ∧ Kept con con' ∧ Shows con'
      ((typedText (r.text (literal "kernel warning") out)).foldl (Screen.act blankCell) s) := by
  have prints := r.prints_text (literal "kernel warning") (by decide) (by decide) nonnull clean text
  obtain ⟨con', printed, shows', kept⟩ := printAll_shows prints shows
  exact ⟨con', printed, kept, shows'⟩

/-! ### The kernel from the console on -/

section Runs

variable (stack : Nat → CommandStack k.symbols) {buf : List UInt8} (size : buf.length = BUFLEN)
  {con : Console} {input : List Int} (bytes : ∀ c ∈ input, 1 ≤ c ∧ c ≤ 255)
include size bytes

/-- The first round never ends. -/
theorem Kernel.monitorForever_shows {s : CrtScreen} (shows : Shows con s) (rounds : Nat) :
    ∃ ed, k.monitorForever stack (rounds + 1) 0 input buf con =
        .ok (.reading (lineEnds input) ed) ∧ Follows ed (typedLine [] input) ∧ Kept con ed.con ∧
      Shows ed.con ((typedText (k.sessionText stack input)).foldl (Screen.act blankCell) s) := by
  obtain ⟨ed, run, follows, kept, shows'⟩ := k.monitor_shows stack size shows bytes
  refine ⟨ed, ?_, follows, kept, shows'⟩
  rw [Kernel.monitorForever, run]
  rfl

/-- A text, and then the monitor. -/
theorem Kernel.printed_session {ps : List Printed} {out : List Int} (prints : Prints ps out)
    (inside : con.crtPos.toNat < CRT_SIZE) :
    ∃ ed, (printAll ps con >>= k.monitorForever stack 1 0 input buf) =
        .ok (.reading (lineEnds input) ed) ∧ Follows ed (typedLine [] input) ∧ Kept con ed.con ∧
      ∃ inside' : ed.con.crtPos.toNat < CRT_SIZE, ed.con.terminal inside' =
        (typedText (out ++ k.sessionText stack input)).foldl (Terminal.act blankCell)
          (con.terminal inside) := by
  obtain ⟨con₁, printed, shows₁, kept₁⟩ := printAll_shows prints (shows_screen inside)
  obtain ⟨ed, run, follows, kept, shows⟩ := k.monitorForever_shows stack size bytes shows₁ 0
  rw [← List.foldl_append, ← typedText_append] at shows
  refine ⟨ed, ?_, follows, kept₁.trans kept, shows.bound, shows.terminal_typed inside⟩
  rw [printed, Exec.ok_bind, run]

/-- The kernel comes up with its messages and the backtrace, and is then the monitor for good. -/
theorem Kernel.init_session (trace : CommandStack k.symbols) (serialExists : Bool)
    (inside : con.crtPos.toNat < CRT_SIZE) :
    ∃ ed, k.i386Init trace stack serialExists input buf con =
        .ok (.reading (lineEnds input) ed) ∧ Follows ed (typedLine [] input) ∧ Kept con ed.con ∧
      ∃ inside' : ed.con.crtPos.toNat < CRT_SIZE, ed.con.terminal inside' =
        (typedText (k.initText trace serialExists ++ k.sessionText stack input)).foldl
          (Terminal.act blankCell) (con.terminal inside) := by
  obtain ⟨ps, returned, prints⟩ := k.initPrints_prints trace serialExists
  rw [Kernel.i386Init, returned, Exec.ok_bind]
  exact k.printed_session stack size bytes prints inside

end Runs

theorem init_session_small :
    ∃ ed, smallKernel.i386Init smallCommandStack (fun _ => smallCommandStack) false [0x0a, 0x68]
        (List.replicate 1024 0) ⟨fun _ => 0, .mono, 1999, []⟩ = .ok (.reading 1 ed) ∧
      Follows ed [0x68] := by
  obtain ⟨ed, run, follows, -⟩ := @Kernel.init_session smallKernel (fun _ => smallCommandStack)
    (List.replicate 1024 0) List.length_replicate ⟨fun _ => 0, .mono, 1999, []⟩ [0x0a, 0x68]
    (by decide) smallCommandStack false (by decide)
  exact ⟨ed, run, follows⟩

end Jos
