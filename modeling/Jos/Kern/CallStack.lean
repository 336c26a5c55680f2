import Jos.Kern.BacktraceFrames

/-!
# The stack that cdecl lays out

From `entry.S` on, a caller pushes the arguments and the return address, and the function that is
called saves the frame pointer. What a function does in its own frame stays below that frame's
pointer, so every frame is still there when `mon_backtrace` looks at it.
-/
namespace Jos

open Library

/-- What the convention uses of the processor. -/
structure Machine where
  mem : Mem
  esp : BitVec 32
  ebp : BitVec 32

/-- `entry.S` clears the frame pointer register and sets the stack pointer. -/
def Machine.boot (mem : Mem) (bootstacktop : BitVec 32) : Machine :=
  { mem, esp := bootstacktop, ebp := 0 }

def Machine.push (m : Machine) (v : BitVec 32) : Machine :=
  { m with esp := m.esp - 4, mem := store32 m.mem (m.esp - 4) v }

/-- The last argument is pushed first. -/
def Machine.pushArgs : List (BitVec 32) → Machine → Machine
  | [], m => m
  | v :: args, m => (pushArgs args m).push v

/-- A call with the address that it returns to. -/
structure Activation where
  call : Call
  eip : BitVec 32

/-- The arguments, the return address, and the prologue: `push %ebp; mov %esp, %ebp`. -/
def Machine.call (m : Machine) (act : Activation) : Machine :=
  let m := ((pushArgs act.call.args m).push act.eip).push m.ebp
  { m with ebp := m.esp }

/-- What a function does in its frame: it moves the stack pointer down, and stores below its
frame pointer only. -/
structure Machine.Works (m m' : Machine) : Prop where
  ebp : m'.ebp = m.ebp
  esp : m'.esp.toNat ≤ m.esp.toNat
  kept : ∀ a : BitVec 32, m.ebp.toNat ≤ a.toNat → m'.mem a = m.mem a

/-- The machine once these calls are active, the innermost first. No frame reaches below the
address space. -/
inductive Active (mem : Mem) (bootstacktop : BitVec 32) : List Activation → Machine → Prop
  | boot : Active mem bootstacktop [] (.boot mem bootstacktop)
  | call {acts : List Activation} {m m' : Machine} (act : Activation) :
      Active mem bootstacktop acts m → m.Works m' → 4 * act.call.args.length + 8 < m'.esp.toNat →
      Active mem bootstacktop (act :: acts) (m'.call act)

/-! ### What a call pushes -/

section Push

variable (m : Machine)

theorem push_esp (v : BitVec 32) (room : 4 ≤ m.esp.toNat) :
    (m.push v).esp.toNat = m.esp.toNat - 4 := by
  dsimp only [Machine.push]
  bv_omega

theorem push_kept (v : BitVec 32) (room : 4 ≤ m.esp.toNat) (a : BitVec 32)
    (above : m.esp.toNat ≤ a.toNat) : (m.push v).mem a = m.mem a :=
  store32_above m.mem v (by bv_omega)

theorem push_load (v : BitVec 32) : load32 (m.push v).mem (m.push v).esp = v :=
  load32_store32 m.mem (m.esp - 4) v

theorem pushArgs_spec (args : List (BitVec 32)) (room : 4 * args.length ≤ m.esp.toNat) :
    (m.pushArgs args).esp.toNat = m.esp.toNat - 4 * args.length ∧
    (∀ a : BitVec 32, m.esp.toNat ≤ a.toNat → (m.pushArgs args).mem a = m.mem a) ∧
    ∀ i < args.length, args[i]? =
      some (load32 (m.pushArgs args).mem ((m.pushArgs args).esp + .ofNat 32 (4 * i))) := by
  induction args with
  | nil => exact ⟨rfl, fun _ _ => rfl, fun i inside => absurd inside (Nat.not_lt_zero i)⟩
  | cons v args ih =>
    rw [List.length_cons] at room
    obtain ⟨esp, kept, loads⟩ := ih (by omega)
    have four : 4 ≤ (m.pushArgs args).esp.toNat := by omega
    have lower := push_esp (m.pushArgs args) v four
    rw [Machine.pushArgs]
    refine ⟨by rw [lower, esp, List.length_cons]; omega, ?_, ?_⟩
    · intro a above
      rw [push_kept _ v four a (by omega), kept a above]
    · intro i inside
      cases i with
      | zero =>
        rw [Nat.mul_zero, BitVec.add_zero, push_load]
        rfl
      | succ i =>
        -- the words above are where they were
        have place : ((m.pushArgs args).push v).esp + .ofNat 32 (4 * (i + 1)) =
            (m.pushArgs args).esp + .ofNat 32 (4 * i) := by
          dsimp only [Machine.push]
          bv_omega
        have bound := m.esp.isLt
        have inside' : i < args.length := Nat.lt_of_succ_lt_succ inside
        rw [place, List.getElem?_cons_succ, loads i inside',
          load32_congr (push_kept (m.pushArgs args) v four) (by bv_omega) (by bv_omega)]

/-- The frame that a call lays out. -/
theorem call_spec (act : Activation) (room : 4 * act.call.args.length + 8 < m.esp.toNat) :
    (m.call act).ebp.toNat + (4 * act.call.args.length + 8) = m.esp.toNat ∧
    (m.call act).esp = (m.call act).ebp ∧
    (∀ a : BitVec 32, m.esp.toNat ≤ a.toNat → (m.call act).mem a = m.mem a) ∧
    load32 (m.call act).mem (m.call act).ebp = m.ebp ∧
    load32 (m.call act).mem ((m.call act).ebp + 4) = act.eip ∧
    Pushed (m.call act).mem (m.call act).ebp act.call := by
  obtain ⟨esp, argsKept, loads⟩ := pushArgs_spec m act.call.args (by omega)
  have bound := m.esp.isLt
  have four : 4 ≤ (m.pushArgs act.call.args).esp.toNat := by omega
  have lower := push_esp _ act.eip four
  have four' : 4 ≤ ((m.pushArgs act.call.args).push act.eip).esp.toNat := by omega
  have lower' := push_esp _ m.ebp four'
  have eipKept := push_kept _ act.eip four
  have ebpKept := push_kept _ m.ebp four'
  -- the frame pointer is two words below the first argument
  have place : (m.call act).ebp + 4 = ((m.pushArgs act.call.args).push act.eip).esp :=
    BitVec.sub_add_cancel _ 4
  have place' : (m.call act).ebp + 8 = (m.pushArgs act.call.args).esp := by
    dsimp only [Machine.call, Machine.push]
    bv_omega
  refine ⟨?_, rfl, ?_, push_load _ m.ebp, ?_, ?_⟩
  · dsimp only [Machine.call]
    omega
  · intro a above
    exact (ebpKept a (by omega)).trans ((eipKept a (by omega)).trans (argsKept a above))
  · rw [place]
    exact (load32_congr ebpKept (Nat.le_refl _) (by omega)).trans (push_load _ act.eip)
  · intro i inside
    have word : ((m.pushArgs act.call.args).esp + .ofNat 32 (4 * i)).toNat =
        (m.pushArgs act.call.args).esp.toNat + 4 * i := by bv_omega
    have later := load32_congr ebpKept (a := (m.pushArgs act.call.args).esp + .ofNat 32 (4 * i))
      (by omega) (by omega)
    rw [place', loads i inside]
    exact congrArg some (later.trans (load32_congr eipKept (by omega) (by omega))).symm

end Push

/-- The frames of these calls, with the innermost one at `ebp`. -/
inductive Stacked (mem : Mem) : BitVec 32 → List Activation → Prop
  | none : Stacked mem 0 []
  | frame {ebp saved : BitVec 32} {act : Activation} {acts : List Activation} : ebp ≠ 0 →
      ebp.toNat + (4 * act.call.args.length + 8) ≤ 4294967296 → load32 mem ebp = saved →
      load32 mem (ebp + 4) = act.eip → Pushed mem ebp act.call →
      (acts ≠ [] → ebp.toNat ≤ saved.toNat) → Stacked mem saved acts →
      Stacked mem ebp (act :: acts)

/-- The frames depend on the memory from the innermost one on only. -/
theorem Stacked.kept {mem mem' : Mem} {ebp : BitVec 32} {acts : List Activation} {lo : Nat}
    (stacked : Stacked mem ebp acts) (kept : ∀ a : BitVec 32, lo ≤ a.toNat → mem' a = mem a)
    (above : acts ≠ [] → lo ≤ ebp.toNat) : Stacked mem' ebp acts := by
  induction stacked with
  | none => exact .none
  | @frame ebp saved act acts nonzero bound link eip pushed order _ ih =>
    have low : lo ≤ ebp.toNat := above (List.cons_ne_nil act acts)
    refine .frame nonzero bound ?_ ?_ ?_ order (ih fun more => Nat.le_trans low (order more))
    · rw [load32_congr kept low (by omega), link]
    · rw [load32_congr kept (by bv_omega) (by bv_omega), eip]
    · intro i inside
      rw [pushed i inside, load32_congr kept (by bv_omega) (by bv_omega)]

theorem Stacked.chain {mem : Mem} {ebp : BitVec 32} {acts : List Activation}
    (stacked : Stacked mem ebp acts) (nonempty : acts ≠ []) :
    ebp ≠ 0 ∧ ∃ frames, Chain mem ebp frames ∧ List.Forall₂ (fun ebp act =>
      load32 mem (ebp + 4) = act.eip ∧ Pushed mem ebp act.call) frames acts := by
  induction stacked with
  | none => exact absurd rfl nonempty
  | @frame ebp saved act acts nonzero _ link eip pushed _ outer ih =>
    refine ⟨nonzero, ?_⟩
    cases acts with
    | nil =>
      cases outer
      exact ⟨[ebp], .last link, .cons ⟨eip, pushed⟩ .nil⟩
    | cons act' acts =>
      obtain ⟨nonzero', frames, chain, laid⟩ := ih (List.cons_ne_nil act' acts)
      exact ⟨ebp :: frames, .link link nonzero' chain, .cons ⟨eip, pushed⟩ laid⟩

/-- Every step of a run keeps the frames that are there. -/
theorem Active.stacked {mem : Mem} {bootstacktop : BitVec 32} {acts : List Activation}
    {m : Machine} (active : Active mem bootstacktop acts m) :
    Stacked m.mem m.ebp acts ∧ (acts ≠ [] → m.esp.toNat ≤ m.ebp.toNat) := by
  induction active with
  | boot => exact ⟨.none, fun some => absurd rfl some⟩
  | @call acts m m' act _ works room ih =>
    obtain ⟨stacked, above⟩ := ih
    obtain ⟨ebp, esp, kept, link, eip, pushed⟩ := call_spec m' act room
    have bound := m'.esp.isLt
    have outer : acts ≠ [] → m'.esp.toNat ≤ m'.ebp.toNat := by
      intro some
      rw [works.ebp]
      exact Nat.le_trans works.esp (above some)
    have stacked' : Stacked m'.mem m'.ebp acts := by
      rw [works.ebp]
      exact stacked.kept works.kept fun _ => Nat.le_refl _
    refine ⟨.frame ?_ (by omega) link eip pushed ?_ (stacked'.kept kept outer), ?_⟩
    · intro zero
      have none : (0 : BitVec 32).toNat = 0 := rfl
      rw [zero] at ebp
      omega
    · intro some
      have := outer some
      omega
    · intro _
      rw [esp]

/-- From `entry.S` on, whatever the functions do in their own frames: `test_backtrace` called from
`i386_init` prints a frame for every call that is active. -/
theorem testBacktrace_booted (k : Symbols) (headed : Headed k.stabs) {mem : Mem}
    {bootstacktop : BitVec 32} {acts : List Activation} {m m' : Machine}
    (active : Active mem bootstacktop acts m) (works : m.Works m') {x : Nat}
    (calls : acts.map Activation.call = activeCalls x)
    (kernel : ∀ act ∈ acts, ULIM ≤ .ofBitVec act.eip)
    (short : ∀ act ∈ acts, ∀ name ∈ symbol k act.eip, name.length < 64)
    (funcName : Fin 64 → UInt8) {fuel : Nat} (enough : x + 3 ≤ fuel)
    {backtrace : List Call → Exec (List Printed)}
    (run : backtrace (activeCalls x) =
      monBacktrace k m'.mem (m'.ebp - 0x1c) (List.ofFn funcName) fuel) :
    ∃ lines : List (List Printed), testBacktrace backtrace x [.i386Init] =
        .ok ((List.range (x + 1)).reverse.map enteringLine ++
          ⟨literal "Stack backtrace:\n", []⟩ :: lines.flatten ++
          (List.range (x + 1)).map leavingLine) ∧
      lines.length = x + 3 ∧
      (lines.map firstArg).take (x + 2) =
        (0 :: List.range (x + 1)).map fun i => some (.word (.ofNat 32 i)) := by
  have length : acts.length = x + 3 := by
    rw [← List.length_map (f := Activation.call), calls]
    simp [activeCalls]
  have nonempty : acts ≠ [] := List.ne_nil_of_length_pos (by omega)
  have stacked := active.stacked.1.kept works.kept fun _ => Nat.le_refl _
  obtain ⟨-, frames, chain, laid⟩ := stacked.chain nonempty
  have chain' : Chain m'.mem (m'.ebp - 0x1c + 0x1c) frames := by
    rw [BitVec.sub_add_cancel, works.ebp]
    exact chain
  have named : ∀ ebp ∈ frames,
      ∃ name, symbol k (load32 m'.mem (ebp + 4)) = some name ∧ name.length < 64 := by
    intro ebp member
    obtain ⟨i, rfl⟩ := List.mem_iff_get.mp member
    have inside : i.val < acts.length := laid.length_eq ▸ i.isLt
    obtain ⟨eip, -⟩ := (List.forall₂_iff_get.mp laid).2 i i.isLt inside
    have member' := List.get_mem acts ⟨i, inside⟩
    rw [eip]
    exact symbol_kernel headed (kernel _ member') (short _ member')
  have pushed : List.Forall₂ (Pushed m'.mem) frames (activeCalls x) := by
    rw [← calls]
    exact List.forall₂_map_right_iff.mpr (laid.imp fun _ _ frame => frame.2)
  have visits : frames.length ≤ fuel := by
    rw [laid.length_eq, length]
    exact enough
  obtain ⟨lines, whole, printed⟩ := monBacktrace_chain k m'.mem chain' named funcName visits
  exact ⟨lines, testBacktrace_frames printed pushed (run.trans whole)⟩

end Jos
