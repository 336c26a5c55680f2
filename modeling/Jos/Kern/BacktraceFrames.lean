import Jos.Kern.BacktraceNames
import Mathlib.Data.List.Forall2

/-!
# The frames of a backtrace

The saved frame pointers lead from one frame to the next, and the loop tests a link before it
follows it. The first frame is found by other offsets than the later ones, but they agree.
-/
namespace Jos

open Library

/-- The frames to which the saved frame pointers lead from `ebp`, which is the first of them; in
the last one the saved frame pointer is 0. -/
inductive Chain (mem : Mem) : BitVec 32 → List (BitVec 32) → Prop
  | last {ebp : BitVec 32} : load32 mem ebp = 0 → Chain mem ebp [ebp]
  | link {ebp saved : BitVec 32} {frames : List (BitVec 32)} : load32 mem ebp = saved →
      saved ≠ 0 → Chain mem saved frames → Chain mem ebp (ebp :: frames)

/-- The two lines for the frame at `ebp`: the frame, and the function that it returns to. -/
def FramePrinted (k : Symbols) (mem : Mem) (ebp : BitVec 32) (lines : List Printed) : Prop :=
  ∃ result info funcName,
    debuginfoEip k.stabs k.stabstr (.ofBitVec (load32 mem (ebp + 4))) = .ok (result, info) ∧
    funcName.takeWhile (· != 0) = nameBytes k.stabstr info ∧
    lines = [frameLine mem (.next ebp), nameLine k info (load32 mem (ebp + 4)) funcName]

/-! ### The walk -/

theorem first_eq_next (temp : BitVec 32) : FrameVars.first temp = .next (temp + 0x1c) := by
  simp only [FrameVars.first, FrameVars.next, BitVec.add_assoc]
  rfl

/-- One turn prints one frame. -/
theorem printFrame_next {k : Symbols} {mem : Mem} {ebp : BitVec 32} {b : Backtrace}
    (vars : b.vars = .next ebp) (size : b.funcName.length = 64)
    (named : ∃ name, symbol k (load32 mem (ebp + 4)) = some name ∧ name.length < 64) :
    ∃ funcName lines, funcName.length = 64 ∧ FramePrinted k mem ebp lines ∧
      printFrame k mem b = .ok ⟨.next ebp, funcName, b.printed ++ lines⟩ := by
  obtain ⟨name, some, short⟩ := named
  obtain ⟨result, info, looked, rfl⟩ := symbol_eq_some_iff.mp some
  have looked' : debuginfoEip k.stabs k.stabstr (.ofBitVec (load32 mem b.vars.eip)) =
      .ok (result, info) := by rwa [vars]
  obtain ⟨funcName, length, string, printed⟩ := printFrame_fits size looked' short
  rw [vars] at printed
  exact ⟨funcName, _, length, ⟨result, info, funcName, looked, string, rfl⟩, printed⟩

/-- The loop prints the frames of a chain in order and stops behind the last one. `P` is what each
turn prints. -/
theorem walkFrames_chain {k : Symbols} {mem : Mem} {P : BitVec 32 → List Printed → Prop}
    {ebp : BitVec 32} {frames : List (BitVec 32)} (chain : Chain mem ebp frames)
    (turn : ∀ ebp ∈ frames, ∀ b : Backtrace, b.vars = .next ebp → b.funcName.length = 64 →
      ∃ funcName lines, funcName.length = 64 ∧ P ebp lines ∧
        printFrame k mem b = .ok ⟨.next ebp, funcName, b.printed ++ lines⟩)
    {b : Backtrace} (vars : b.vars = .next ebp) (size : b.funcName.length = 64) {fuel : Nat}
    (enough : frames.length ≤ fuel) :
    ∃ b' lines, walkFrames k mem fuel b = .ok b' ∧ b'.printed = b.printed ++ lines.flatten ∧
      List.Forall₂ P frames lines := by
  induction chain generalizing b fuel with
  | @last ebp ended =>
    obtain ⟨fuel, rfl⟩ := Nat.exists_eq_succ_of_ne_zero (Nat.ne_of_gt enough)
    obtain ⟨funcName, lines, -, here, printed⟩ := turn ebp (by simp) b vars size
    have stopped : load32 mem (FrameVars.next ebp).ebp = 0 := ended
    refine ⟨⟨.next ebp, funcName, b.printed ++ lines⟩, [lines], ?_,
      by rw [List.flatten_singleton], .cons here .nil⟩
    rw [walkFrames, printed, Exec.ok_bind, if_pos stopped]
    rfl
  | @link ebp saved frames linked nonzero _ ih =>
    obtain ⟨fuel, rfl⟩ := Nat.exists_eq_succ_of_ne_zero (Nat.ne_of_gt (Nat.zero_lt_of_lt enough))
    obtain ⟨funcName, lines, size', here, printed⟩ := turn ebp (by simp) b vars size
    obtain ⟨b', later, returned, out, rest⟩ := ih (fun ebp' member => turn ebp' (by simp [member]))
      (b := ⟨.next saved, funcName, b.printed ++ lines⟩) rfl size' (Nat.le_of_succ_le_succ enough)
    have onwards : load32 mem (FrameVars.next ebp).ebp = saved := linked
    refine ⟨b', lines :: later, ?_, ?_, .cons here rest⟩
    · rw [walkFrames, printed, Exec.ok_bind, onwards, if_neg nonzero]
      exact returned
    · rw [out, List.flatten_cons, List.append_assoc]

/-! ### The calls of test_backtrace -/

/-- The calls that are active while `mon_backtrace` runs, the innermost first. -/
def activeCalls (x : Nat) : List Call :=
  .monBacktrace 0 0 0 :: ((List.range (x + 1)).map fun i => .testBacktrace (.ofNat 32 i)) ++
    [.i386Init]

theorem activeCalls_test {x i : Nat} (inside : i < x + 1) :
    (activeCalls x)[i + 1]? = some (.testBacktrace (.ofNat 32 i)) := by
  rw [activeCalls, List.cons_append, List.getElem?_cons_succ,
    List.getElem?_append_left (by simpa using inside), List.getElem?_map,
    List.getElem?_range inside]
  rfl

/-- The caller's arguments lie above the frame at `ebp`. -/
def Pushed (mem : Mem) (ebp : BitVec 32) (call : Call) : Prop :=
  ∀ i < call.args.length, call.args[i]? = some (load32 mem (ebp + 8 + .ofNat 32 (4 * i)))

instance (mem : Mem) (ebp : BitVec 32) (call : Call) : Decidable (Pushed mem ebp call) :=
  inferInstanceAs (Decidable (∀ i < call.args.length, _))

def enteringLine (x : Nat) : Printed :=
  ⟨literal "entering test_backtrace %d\n", [.word (.ofNat 32 x)]⟩

def leavingLine (x : Nat) : Printed :=
  ⟨literal "leaving test_backtrace %d\n", [.word (.ofNat 32 x)]⟩

theorem testBacktrace_eq (backtrace : List Call → Exec (List Printed)) (x : Nat)
    (callers : List Call) : testBacktrace backtrace x callers = (do
      let inner ← backtrace (.monBacktrace 0 0 0 ::
        (((List.range (x + 1)).map fun i => .testBacktrace (.ofNat 32 i)) ++ callers))
      pure ((List.range (x + 1)).reverse.map enteringLine ++ inner ++
        (List.range (x + 1)).map leavingLine)) := by
  induction x generalizing callers with
  | zero =>
    rw [testBacktrace, if_neg (by decide)]
    rfl
  | succ x ih =>
    have deeper : ((x + 1 : Nat) : Int) > 0 := by omega
    have less : ((x + 1 : Nat) : Int) - 1 = (x : Int) := by omega
    rw [testBacktrace, if_pos deeper, less, ih, List.range_succ (n := x + 1), List.map_append,
      List.append_assoc]
    -- the word that is pushed for the argument
    rw [BitVec.ofInt_natCast, bind_assoc]
    refine bind_congr fun inner => ?_
    simp only [Exec.pure_eq_ok, Exec.ok_bind, List.reverse_append, List.reverse_singleton,
      List.map_append, List.map_singleton, List.append_assoc, List.cons_append, List.nil_append]
    rfl

/-- The first argument that the lines of a frame show. -/
def firstArg (lines : List Printed) : Option Arg := lines.head?.bind (·.args[2]?)

theorem FramePrinted.firstArg_eq {k : Symbols} {mem : Mem} {ebp : BitVec 32} {lines : List Printed}
    (printed : FramePrinted k mem ebp lines) :
    firstArg lines = some (.word (load32 mem (ebp + 8))) := by
  obtain ⟨_, _, _, _, _, rfl⟩ := printed
  rfl

/-- What the frames of the calls show is what the callers have pushed. -/
theorem firstArgs_pushed {k : Symbols} {mem : Mem} {frames : List (BitVec 32)}
    {lines : List (List Printed)} {calls : List Call}
    (printed : List.Forall₂ (FramePrinted k mem) frames lines)
    (pushed : List.Forall₂ (Pushed mem) frames calls) (i : Nat) {call : Call} {v : BitVec 32}
    (here : calls[i]? = some call) (first : call.args[0]? = some v) :
    (lines.map firstArg)[i]? = some (some (.word v)) := by
  induction pushed generalizing lines i with
  | nil => cases here
  | @cons ebp call' frames calls args _ ih =>
    obtain ⟨line, lines, frame, rest, rfl⟩ := List.forall₂_cons_left_iff.mp printed
    cases i with
    | zero =>
      obtain rfl := Option.some.inj here
      have word := args 0 (List.getElem?_eq_some_iff.mp first).1
      rw [Nat.mul_zero, BitVec.add_zero, first] at word
      rw [List.map_cons, frame.firstArg_eq, ← Option.some.inj word]
      rfl
    | succ i => exact ih rest i here

/-- The run of `test_backtrace`, given what `mon_backtrace` prints on the stack of its calls. -/
theorem testBacktrace_frames {k : Symbols} {mem : Mem} {frames : List (BitVec 32)}
    {lines : List (List Printed)} (printed : List.Forall₂ (FramePrinted k mem) frames lines)
    {x : Nat} (pushed : List.Forall₂ (Pushed mem) frames (activeCalls x))
    {backtrace : List Call → Exec (List Printed)}
    (run : backtrace (activeCalls x) = .ok (⟨literal "Stack backtrace:\n", []⟩ :: lines.flatten)) :
    testBacktrace backtrace x [.i386Init] = .ok ((List.range (x + 1)).reverse.map enteringLine ++
        ⟨literal "Stack backtrace:\n", []⟩ :: lines.flatten ++
        (List.range (x + 1)).map leavingLine) ∧
      lines.length = x + 3 ∧
      (lines.map firstArg).take (x + 2) =
        (0 :: List.range (x + 1)).map fun i => some (.word (.ofNat 32 i)) := by
  have count : lines.length = x + 3 := by
    rw [← printed.length_eq, pushed.length_eq]
    simp [activeCalls]
  refine ⟨?_, count, ?_⟩
  · have calls : backtrace (.monBacktrace 0 0 0 ::
        (((List.range (x + 1)).map fun i => .testBacktrace (.ofNat 32 i)) ++ [.i386Init])) = _ :=
      run
    rw [testBacktrace_eq, calls]
    rfl
  · refine List.ext_getElem? fun i => ?_
    rw [List.getElem?_take]
    by_cases shown : i < x + 2
    · rw [if_pos shown]
      cases i with
      | zero => exact firstArgs_pushed printed pushed 0 rfl rfl
      | succ i =>
        have inside : i < x + 1 := Nat.lt_of_succ_lt_succ shown
        rw [firstArgs_pushed printed pushed (i + 1) (activeCalls_test inside) rfl]
        simp [inside]
    · rw [if_neg shown, List.getElem?_eq_none]
      rw [List.length_map, List.length_cons, List.length_range]
      exact Nat.le_of_not_lt shown

theorem Headed.returns {k : Symbols} (headed : Headed k.stabs) {addr : UInt32}
    (kernel : ULIM ≤ addr) :
    ∃ result info, debuginfoEip k.stabs k.stabstr addr = .ok (result, info) := by
  by_cases terminated : k.stabstr.getLast? = some 0
  · rcases headed.searches addr with ⟨rfile, none⟩ | ⟨f, fEnd, g, gEnd, n, nEnd, fn, line, searches⟩
    · exact ⟨-1, _, debuginfoEip_noFile kernel terminated none⟩
    · exact ⟨0, _, searches.returned kernel terminated⟩
  · exact ⟨-1, _, debuginfoEip_refused k.stabs kernel terminated⟩

/-- `debuginfo_eip` returns for every address of the kernel. -/
theorem symbol_kernel {k : Symbols} (headed : Headed k.stabs) {eip : BitVec 32}
    (kernel : ULIM ≤ .ofBitVec eip) (short : ∀ name ∈ symbol k eip, name.length < 64) :
    ∃ name, symbol k eip = some name ∧ name.length < 64 := by
  obtain ⟨result, info, looked⟩ := headed.returns kernel
  have some := symbol_eq_some_iff.mpr ⟨result, info, looked, rfl⟩
  exact ⟨_, some, short _ some⟩

theorem monBacktrace_chain (k : Symbols) (mem : Mem) {temp : BitVec 32} {frames : List (BitVec 32)}
    (chain : Chain mem (temp + 0x1c) frames)
    (named : ∀ ebp ∈ frames, ∃ name, symbol k (load32 mem (ebp + 4)) = some name ∧ name.length < 64)
    (funcName : Fin 64 → UInt8) {fuel : Nat} (enough : frames.length ≤ fuel) :
    ∃ lines, monBacktrace k mem temp (List.ofFn funcName) fuel =
        .ok (⟨literal "Stack backtrace:\n", []⟩ :: lines.flatten) ∧
      List.Forall₂ (FramePrinted k mem) frames lines := by
  obtain ⟨b, lines, returned, out, printed⟩ := walkFrames_chain chain
    (fun ebp member _ vars size => printFrame_next vars size (named ebp member))
    (b := .start temp (List.ofFn funcName)) (first_eq_next temp) List.length_ofFn enough
  refine ⟨lines, ?_, printed⟩
  rw [monBacktrace, returned, Exec.map_ok, out]
  rfl

theorem monBacktrace_frames (k : Symbols) (headed : Headed k.stabs) (mem : Mem) (temp : BitVec 32)
    (funcName : Fin 64 → UInt8) {frames : List (BitVec 32)} (chain : Chain mem (temp + 0x1c) frames)
    (kernel : ∀ ebp ∈ frames, ULIM ≤ .ofBitVec (load32 mem (ebp + 4)))
    (short : ∀ ebp ∈ frames, ∀ name ∈ symbol k (load32 mem (ebp + 4)), name.length < 64)
    (fuel : Nat) (enough : frames.length ≤ fuel) :
    ∃ lines, monBacktrace k mem temp (List.ofFn funcName) fuel =
        .ok (⟨literal "Stack backtrace:\n", []⟩ :: lines.flatten) ∧
      List.Forall₂ (FramePrinted k mem) frames lines ∧
      ∀ (x : Nat) (backtrace : List Call → Exec (List Printed)),
        List.Forall₂ (Pushed mem) frames (activeCalls x) →
        backtrace (activeCalls x) = monBacktrace k mem temp (List.ofFn funcName) fuel →
        testBacktrace backtrace x [.i386Init] =
          .ok ((List.range (x + 1)).reverse.map enteringLine ++
            ⟨literal "Stack backtrace:\n", []⟩ :: lines.flatten ++
            (List.range (x + 1)).map leavingLine) ∧
        lines.length = x + 3 ∧
        (lines.map firstArg).take (x + 2) =
          (0 :: List.range (x + 1)).map fun i => some (.word (.ofNat 32 i)) := by
  obtain ⟨lines, whole, printed⟩ := monBacktrace_chain k mem chain
    (fun ebp member => symbol_kernel headed (kernel ebp member) (short ebp member)) funcName enough
  refine ⟨lines, whole, printed, ?_⟩
  intro x backtrace pushed run
  exact testBacktrace_frames printed pushed (run.trans whole)

def smallSymbols : Symbols where
  stabs := smallTable
  stabstr := smallStrings
  place _ := 0xf0101000
  funcName := 0xf010ff24

/-- The frames of `mon_backtrace`, `test_backtrace(0)`, `test_backtrace(1)` and `i386_init`. -/
def smallStack : Mem :=
  wordsFrom 0xf010ff80
    [0xf010ffa0, 0xf0100020, 0, 0, 0, 0, 0, 0,
     0xf010ffc0, 0xf0100018, 0, 0, 0, 0, 0, 0,
     0xf010ffe0, 0xf0100018, 1, 0, 0, 0, 0, 0,
     0, 0xf010003e, 0, 0, 0, 0, 0, 0]

def smallFrames : List (BitVec 32) := [0xf010ff80, 0xf010ffa0, 0xf010ffc0, 0xf010ffe0]

theorem smallStack_chain : Chain smallStack (0xf010ff64 + 0x1c) smallFrames :=
  .link rfl (by decide) (.link rfl (by decide) (.link rfl (by decide) (.last rfl)))

theorem smallStack_pushed : List.Forall₂ (Pushed smallStack) smallFrames (activeCalls 1) :=
  .cons (by decide +kernel) (.cons (by decide +kernel) (.cons (by decide +kernel)
    (.cons (by decide +kernel) .nil)))

theorem forall_smallFrames {p : BitVec 32 → Prop} : (∀ ebp ∈ smallFrames, p ebp) ↔
    p 0xf010ff80 ∧ p 0xf010ffa0 ∧ p 0xf010ffc0 ∧ p 0xf010ffe0 := by
  simp [smallFrames]

theorem monBacktrace_frames_small :
    ∃ lines, monBacktrace smallSymbols smallStack 0xf010ff64 (List.ofFn fun _ : Fin 64 => 0) 4 =
        .ok (⟨literal "Stack backtrace:\n", []⟩ :: List.flatten lines) ∧
      testBacktrace (fun _ => monBacktrace smallSymbols smallStack 0xf010ff64
          (List.ofFn fun _ : Fin 64 => 0) 4) (1 : Nat) [.i386Init] =
        .ok ((List.range 2).reverse.map enteringLine ++
          ⟨literal "Stack backtrace:\n", []⟩ :: lines.flatten ++ (List.range 2).map leavingLine) ∧
      lines.length = 4 ∧ (lines.map firstArg).take 3 =
        (0 :: List.range 2).map fun i => some (.word (.ofNat 32 i)) := by
  have kernel : ∀ ebp ∈ smallFrames, ULIM ≤ .ofBitVec (load32 smallStack (ebp + 4)) :=
    forall_smallFrames.mpr (by decide +kernel)
  have short : ∀ ebp ∈ smallFrames,
      ∀ name ∈ symbol smallSymbols (load32 smallStack (ebp + 4)), name.length < 64 :=
    forall_smallFrames.mpr (by decide +kernel)
  obtain ⟨lines, printed, -, calls⟩ := monBacktrace_frames smallSymbols
    (by intro s header; cases header; rfl) smallStack 0xf010ff64 (fun _ => 0) smallStack_chain
    kernel short 4 (Nat.le_refl 4)
  obtain ⟨run, count, args⟩ := calls 1 (fun _ => monBacktrace smallSymbols smallStack 0xf010ff64
    (List.ofFn fun _ : Fin 64 => 0) 4) smallStack_pushed rfl
  exact ⟨lines, printed, run, count, args⟩

end Jos
