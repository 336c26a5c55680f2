import Jos.Grade.Monitors

/-!
# gradelib.py: Runner

`__react` reads what QEMU prints and what its GDB stub sends, in whatever order `select` finds them
ready, until a callback of `on_output` or the GDB client raises `TerminateTest`, both are at the end
of their files, or the deadline has passed.
-/
namespace Jos

open Library

/-- What a reactor reads; nothing at the end of the file. -/
inductive Arrival
  | qemu (buf : List UInt8)
  | gdb (data : List UInt8)

/-- What `__react` comes upon in a turn: that its deadline has passed, or what a reactor that is
ready reads. -/
inductive Event
  | deadline
  | ready (arrival : Arrival)

def qemuOutput : List Arrival → List UInt8
  | [] => []
  | .qemu buf :: arrivals => buf ++ qemuOutput arrivals
  | .gdb _ :: arrivals => qemuOutput arrivals

def gdbData : List Arrival → List UInt8
  | [] => []
  | .qemu _ :: arrivals => gdbData arrivals
  | .gdb data :: arrivals => data ++ gdbData arrivals

namespace Arrival

def endsQemu : Arrival → Bool
  | qemu buf => buf.isEmpty
  | gdb _ => false

def endsGdb : Arrival → Bool
  | qemu _ => false
  | gdb data => data.isEmpty

/-- Whether it comes from one that is open, where `proc` and `sock` say which are. -/
def isOpen (proc sock : Bool) : Arrival → Bool
  | qemu _ => proc
  | gdb _ => sock

end Arrival

/-- A callback of `on_output`: the file of `save`, or `handle_output`. -/
inductive OutputMonitor
  | save (file : List UInt8)
  | onLine (isMatch raises : List UInt8 → Bool) (s : LineCalls)

/-- `f.write` or `handle_output`, and whether it raises `TerminateTest`. -/
def OutputMonitor.call (output : List UInt8) : OutputMonitor → OutputMonitor × Bool
  | .save file => (.save (file ++ output), false)
  | .onLine isMatch raises s =>
    let (s, raised) := handleOutput isMatch raises s output
    (.onLine isMatch raises s, raised)

/-- `for callback in self.on_output: callback(buf)` -/
def callAll (output : List UInt8) : List OutputMonitor → List OutputMonitor × Bool
  | [] => ([], false)
  | m :: ms =>
    let (m, raised) := m.call output
    if raised then (m :: ms, true)
    else
      let (ms, raised) := callAll output ms
      (m :: ms, raised)

/-- `proc` and `sock` are whether `self.proc` and `self.sock` are not `None`. -/
structure Runner where
  outbytes : List UInt8
  onOutput : List OutputMonitor
  proc : Bool
  gdbBuf : List Char
  sock : Bool

/-- `handle_read` of QEMU and of the GDB client. -/
def Runner.handleRead (r : Runner) : Arrival → Runner × Bool
  | .qemu buf =>
    let (ms, raised) := callAll buf r.onOutput
    let r := { r with outbytes := r.outbytes ++ buf, onOutput := ms }
    if raised then (r, true)
    -- the end of the file, and `wait`
    else if buf.isEmpty then ({ r with proc := false }, false)
    else (r, false)
  | .gdb data =>
    if data.isEmpty then ({ r with sock := false }, false)
    else
      let d := packetFraming.drain isStop (r.gdbBuf ++ decodeAscii data)
      ({ r with gdbBuf := d.rest }, d.stopped)

/-- How `__react` ends; `waiting` if it does not. -/
inductive Ending
  | terminated | timeout | closed | waiting
deriving DecidableEq

/-- What `__react` prints at its end. -/
def Ending.message : Ending → List Char
  | timeout => "Timeout! ".toList
  | terminated | closed | waiting => []

/-- `__react`. `select` does not report a reactor that is closed. -/
def react : List Event → Runner → Ending × Runner
  | [], r => (if r.proc || r.sock then .waiting else .closed, r)
  | .deadline :: _, r => (.timeout, r)
  | .ready arrival :: events, r =>
    if !(r.proc || r.sock) then (.closed, r)
    else if !arrival.isOpen r.proc r.sock then react events r
    else
      let (r, raised) := r.handleRead arrival
      if raised then (.terminated, r) else react events r

/-- What it reads as long as nothing stops it, and how it ends then. -/
def untilEnd : Bool → Bool → List Event → List Arrival × Ending
  | proc, sock, [] => ([], if proc || sock then .waiting else .closed)
  | _, _, .deadline :: _ => ([], .timeout)
  | proc, sock, .ready arrival :: events =>
    if !(proc || sock) then ([], .closed)
    else if !arrival.isOpen proc sock then untilEnd proc sock events
    else
      let (arrivals, ending) :=
        untilEnd (proc && !arrival.endsQemu) (sock && !arrival.endsGdb) events
      (arrival :: arrivals, ending)

theorem untilEnd_ending (proc sock : Bool) (events : List Event) :
    (untilEnd proc sock events).2 ≠ .terminated := by
  induction events generalizing proc sock with
  | nil => rw [untilEnd]; split <;> decide
  | cons event events ih =>
    cases event with
    | deadline => exact Ending.noConfusion
    | ready arrival =>
      rw [untilEnd]
      split
      · exact Ending.noConfusion
      · split
        · exact ih proc sock
        · exact ih _ _

/-! ### Chunks that come one after the other -/

namespace OutputMonitor

theorem call_append (m : OutputMonitor) (a b : List UInt8) (calm : (m.call a).2 = false) :
    m.call (a ++ b) = (m.call a).1.call b := by
  cases m with
  | save file => simp [call]
  | onLine isMatch raises s =>
    dsimp only [call, handleOutput] at calm ⊢
    rw [← List.append_assoc, Framing.drain_append (s.buf ++ a), if_neg (by simp [calm])]
    simp

theorem raises_append (m : OutputMonitor) (a b : List UInt8) (raised : (m.call a).2 = true) :
    (m.call (a ++ b)).2 = true := by
  cases m with
  | save file => cases raised
  | onLine isMatch raises s =>
    dsimp only [call, handleOutput] at raised ⊢
    rw [← List.append_assoc, Framing.drain_append (s.buf ++ a), if_pos raised]
    exact raised

end OutputMonitor

theorem callAll_raises (output : List UInt8) (ms : List OutputMonitor) :
    (callAll output ms).2 = ms.any fun m => (m.call output).2 := by
  induction ms with
  | nil => rfl
  | cons m ms ih =>
    rw [callAll, List.any_cons]
    by_cases raised : (m.call output).2
    · simp [raised]
    · simp [raised, ih]

theorem callAll_calm {output : List UInt8} {ms : List OutputMonitor}
    (calm : (callAll output ms).2 = false) :
    (callAll output ms).1 = ms.map fun m => (m.call output).1 := by
  induction ms with
  | nil => rfl
  | cons m ms ih =>
    rw [callAll] at calm ⊢
    by_cases raised : (m.call output).2
    · simp [raised] at calm
    · simp only [raised, Bool.false_eq_true, if_false] at calm ⊢
      rw [ih calm, List.map_cons]

theorem qemuOutput_append (a b : List Arrival) :
    qemuOutput (a ++ b) = qemuOutput a ++ qemuOutput b := by
  induction a with
  | nil => rfl
  | cons arrival a ih => cases arrival <;> simp [qemuOutput, ih]

theorem gdbData_append (a b : List Arrival) : gdbData (a ++ b) = gdbData a ++ gdbData b := by
  induction a with
  | nil => rfl
  | cons arrival a ih => cases arrival <;> simp [gdbData, ih]

/-- The packets of the GDB stub as text -/
def gdbText (arrivals : List Arrival) : List Char := decodeAscii (gdbData arrivals)

theorem gdbText_append (a b : List Arrival) : gdbText (a ++ b) = gdbText a ++ gdbText b := by
  rw [gdbText, gdbData_append]
  exact List.map_append

/-! ### Runs -/

/-- Nothing that would stop the test is waiting in a buffer. -/
structure Runner.Settled (r : Runner) : Prop where
  lines : ∀ m ∈ r.onOutput, m.call [] = (m, false)
  packets : searchPacket r.gdbBuf = none

/-- Whether what is read ends the test. -/
def Runner.ends (r : Runner) (arrivals : List Arrival) : Bool :=
  (r.onOutput.any fun m => (m.call (qemuOutput arrivals)).2) ||
    (packetFraming.drain isStop (r.gdbBuf ++ gdbText arrivals)).stopped

/-- Where the test goes on: it has read all of this. -/
def Runner.after (r : Runner) (arrivals : List Arrival) : Runner where
  outbytes := r.outbytes ++ qemuOutput arrivals
  onOutput := r.onOutput.map fun m => (m.call (qemuOutput arrivals)).1
  proc := r.proc && !arrivals.any Arrival.endsQemu
  gdbBuf := (packetFraming.drain isStop (r.gdbBuf ++ gdbText arrivals)).rest
  sock := r.sock && !arrivals.any Arrival.endsGdb

section Step

variable {r : Runner} (settled : r.Settled)

include settled

theorem settled_drain : packetFraming.drain isStop (r.gdbBuf ++ []) = ⟨[], false, r.gdbBuf⟩ := by
  rw [List.append_nil]
  exact Framing.drain_none settled.packets

theorem settled_map : (r.onOutput.map fun m => (m.call []).1) = r.onOutput :=
  (List.map_congr_left fun m member => congrArg Prod.fst (settled.lines m member)).trans
    (List.map_id' _)

theorem settled_calm : (r.onOutput.any fun m => (m.call []).2) = false := by
  rw [List.any_eq_false]
  intro m member
  simp [settled.lines m member]

theorem settled_ends : r.ends [] = false := by
  have packets := settled_drain settled
  have lines := settled_calm settled
  simp only [Runner.ends, qemuOutput, gdbText, gdbData, decodeAscii, List.map_nil]
  rw [lines, packets]
  rfl

theorem settled_after : r.after [] = r := by
  have packets := settled_drain settled
  have lines := settled_map settled
  simp only [Runner.after, qemuOutput, gdbText, gdbData, decodeAscii, List.map_nil, List.any_nil,
    Bool.not_false, Bool.and_true]
  rw [lines, packets, List.append_nil]

/-- A reactor that is ready, as the text that it adds. -/
theorem handleRead_raises (arrival : Arrival) :
    (r.handleRead arrival).2 = r.ends [arrival] := by
  cases arrival with
  | qemu buf =>
    have packets := settled_drain settled
    have lines := callAll_raises buf r.onOutput
    simp only [Runner.handleRead, Runner.ends, qemuOutput, gdbText, gdbData, decodeAscii,
      List.map_nil, List.append_nil] at packets ⊢
    rw [packets, ← lines]
    cases (callAll buf r.onOutput).2 with
    | true => rfl
    | false => cases buf <;> rfl
  | gdb data =>
    have lines := settled_calm settled
    have packets := settled_drain settled
    simp only [Runner.ends, qemuOutput, gdbText, gdbData, List.append_nil]
    rw [lines, Bool.false_or, Runner.handleRead]
    cases data with
    | nil => exact (congrArg Drained.stopped packets).symm
    | cons b data => rfl

theorem handleRead_calm (arrival : Arrival) (calm : (r.handleRead arrival).2 = false) :
    (r.handleRead arrival).1 = r.after [arrival] := by
  cases arrival with
  | qemu buf =>
    have packets := settled_drain settled
    have quiet : (callAll buf r.onOutput).2 = false := by
      by_contra raised
      rw [Runner.handleRead] at calm
      simp [raised] at calm
    have all := callAll_calm quiet
    simp only [Runner.handleRead, Runner.after, qemuOutput, gdbText, gdbData, decodeAscii,
      List.map_nil, List.append_nil] at packets ⊢
    rw [packets, ← all, quiet]
    cases buf <;> simp [Arrival.endsQemu, Arrival.endsGdb]
  | gdb data =>
    have packets := settled_drain settled
    have lines := settled_map settled
    simp only [Runner.handleRead, Runner.after, qemuOutput, gdbText, gdbData, List.append_nil]
    rw [lines]
    cases data with
    | nil =>
      have rest : (packetFraming.drain isStop (r.gdbBuf ++ decodeAscii [])).rest = r.gdbBuf :=
        congrArg Drained.rest packets
      rw [rest]
      simp [Arrival.endsQemu, Arrival.endsGdb]
    | cons b data => simp [Arrival.endsQemu, Arrival.endsGdb]

end Step

theorem handleRead_outbytes (r : Runner) (arrival : Arrival) :
    (r.handleRead arrival).1.outbytes = r.outbytes ++ qemuOutput [arrival] := by
  cases arrival with
  | qemu buf =>
    rw [Runner.handleRead, qemuOutput, qemuOutput, List.append_nil]
    dsimp only
    split
    · rfl
    · split <;> rfl
  | gdb data =>
    rw [Runner.handleRead, qemuOutput, qemuOutput, List.append_nil]
    split <;> rfl

section Append

variable {r : Runner} {arrivals : List Arrival}

theorem ends_append (ended : r.ends arrivals = true) (later : List Arrival) :
    r.ends (arrivals ++ later) = true := by
  rw [Runner.ends, Bool.or_eq_true, List.any_eq_true] at ended ⊢
  rw [qemuOutput_append, gdbText_append]
  rcases ended with ⟨m, member, raised⟩ | stopped
  · exact .inl ⟨m, member, m.raises_append _ _ raised⟩
  · right
    rw [← List.append_assoc, Framing.drain_append (r.gdbBuf ++ gdbText arrivals), if_pos stopped]
    exact stopped

variable (calm : r.ends arrivals = false)

include calm

theorem calm_lines : ∀ m ∈ r.onOutput, (m.call (qemuOutput arrivals)).2 = false := by
  rw [Runner.ends, Bool.or_eq_false_iff, List.any_eq_false] at calm
  exact fun m member => eq_false_of_ne_true (calm.1 m member)

theorem calm_packets :
    (packetFraming.drain isStop (r.gdbBuf ++ gdbText arrivals)).stopped = false := by
  rw [Runner.ends, Bool.or_eq_false_iff] at calm
  exact calm.2

theorem after_settled : (r.after arrivals).Settled where
  lines m' member := by
    obtain ⟨m, from', rfl⟩ := List.mem_map.mp member
    have calm' := calm_lines calm m from'
    rw [← m.call_append _ [] calm', List.append_nil]
    exact Prod.ext rfl calm'
  packets := Framing.drain_rest (calm_packets calm)

theorem after_ends (later : List Arrival) :
    (r.after arrivals).ends later = r.ends (arrivals ++ later) := by
  have lines : ((r.onOutput.map fun m => (m.call (qemuOutput arrivals)).1).any
      fun m => (m.call (qemuOutput later)).2) =
      r.onOutput.any fun m => (m.call (qemuOutput (arrivals ++ later))).2 := by
    rw [List.any_map, Bool.eq_iff_iff, List.any_eq_true, List.any_eq_true, qemuOutput_append]
    refine exists_congr fun m => and_congr_right fun member => ?_
    rw [m.call_append _ _ (calm_lines calm m member)]
    rfl
  have stopped := calm_packets calm
  rw [Runner.ends, Runner.ends, Runner.after, lines, gdbText_append, ← List.append_assoc,
    Framing.drain_append (r.gdbBuf ++ gdbText arrivals), if_neg (by simp [stopped])]

theorem after_after (later : List Arrival) :
    (r.after arrivals).after later = r.after (arrivals ++ later) := by
  have lines : ((r.onOutput.map fun m => (m.call (qemuOutput arrivals)).1).map
      fun m => (m.call (qemuOutput later)).1) =
      r.onOutput.map fun m => (m.call (qemuOutput (arrivals ++ later))).1 := by
    rw [List.map_map, qemuOutput_append]
    refine List.map_congr_left fun m member => ?_
    rw [m.call_append _ _ (calm_lines calm m member)]
    rfl
  have stopped := calm_packets calm
  have rest : (packetFraming.drain isStop
      ((packetFraming.drain isStop (r.gdbBuf ++ gdbText arrivals)).rest ++ gdbText later)).rest =
      (packetFraming.drain isStop (r.gdbBuf ++ gdbText (arrivals ++ later))).rest := by
    rw [gdbText_append, ← List.append_assoc,
      Framing.drain_append (r.gdbBuf ++ gdbText arrivals), if_neg (by simp [stopped])]
  rw [Runner.after, Runner.after, lines, rest, Runner.after, qemuOutput_append]
  simp [Bool.and_assoc]

end Append

/-- A run from `r` that comes to `ending` when it has read all of `arrivals`, unless these end it
before. -/
def Reacts (r : Runner) (arrivals : List Arrival) (ending : Ending) (run : Ending × Runner) :
    Prop :=
  (r.ends arrivals = false → run = (ending, r.after arrivals)) ∧
  (r.ends arrivals = true → ∃ before last unread, arrivals = before ++ last :: unread ∧
    r.ends before = false ∧ r.ends (before ++ [last]) = true ∧ run.1 = .terminated ∧
    run.2.outbytes = r.outbytes ++ qemuOutput (before ++ [last]))

theorem Reacts.nil {r : Runner} (settled : r.Settled) (ending : Ending) :
    Reacts r [] ending (ending, r) :=
  ⟨fun _ => congrArg (ending, ·) (settled_after settled).symm,
    fun ended => absurd ended (ne_true_of_eq_false (settled_ends settled))⟩

/-- A turn that reads `arrival`, and those after it. -/
theorem Reacts.cons {r : Runner} (settled : r.Settled) {arrival : Arrival}
    {arrivals : List Arrival} {ending : Ending} {run : Ending × Runner}
    (raised : (r.handleRead arrival).2 = true → run = (.terminated, (r.handleRead arrival).1))
    (calm : (r.handleRead arrival).2 = false → Reacts (r.after [arrival]) arrivals ending run) :
    Reacts r (arrival :: arrivals) ending run := by
  have raises := handleRead_raises settled arrival
  by_cases stopped : (r.handleRead arrival).2
  · have first : r.ends [arrival] = true := raises.symm.trans stopped
    have ended := ends_append first arrivals
    refine ⟨fun quiet => absurd ended (ne_true_of_eq_false quiet), fun _ => ?_⟩
    rw [raised stopped]
    exact ⟨[], arrival, arrivals, rfl, settled_ends settled, first, rfl,
      handleRead_outbytes r arrival⟩
  · have stopped : (r.handleRead arrival).2 = false := eq_false_of_ne_true stopped
    have quiet := raises.symm.trans stopped
    obtain ⟨goesOn, ends⟩ := calm stopped
    rw [after_ends quiet, after_after quiet] at goesOn
    rw [after_ends quiet] at ends
    refine ⟨goesOn, fun ended => ?_⟩
    obtain ⟨before, last, unread, rfl, open', closed, flag, out⟩ := ends ended
    rw [after_ends quiet] at open' closed
    refine ⟨arrival :: before, last, unread, rfl, open', closed, flag, ?_⟩
    rw [out, Runner.after, List.append_assoc, List.cons_append, ← qemuOutput_append [arrival]]
    rfl

/-- In every order, a run ends when the two texts together end it. -/
theorem react_spec (events : List Event) {r : Runner} (settled : r.Settled) :
    Reacts r (untilEnd r.proc r.sock events).1 (untilEnd r.proc r.sock events).2 (react events r) := by
  induction events generalizing r with
  | nil => exact .nil settled _
  | cons event events ih =>
    cases event with
    | deadline => exact .nil settled .timeout
    | ready arrival =>
      rw [untilEnd, react]
      split
      · exact .nil settled .closed
      · split
        · exact ih settled
        · refine .cons settled (fun raised => if_pos raised) fun calm => ?_
          have quiet := (handleRead_raises settled arrival).symm.trans calm
          have later := ih (after_settled quiet)
          have next : (if (r.handleRead arrival).2 then
                (Ending.terminated, (r.handleRead arrival).1)
              else react events (r.handleRead arrival).1) = react events (r.after [arrival]) := by
            rw [if_neg (by simp [calm]), handleRead_calm settled arrival calm]
          have proc : (r.after [arrival]).proc = (r.proc && !arrival.endsQemu) := by
            simp [Runner.after]
          have sock : (r.after [arrival]).sock = (r.sock && !arrival.endsGdb) := by
            simp [Runner.after]
          rw [proc, sock, ← next] at later
          exact later

/-! ### The monitors of a test -/

/-- A monitor that `run_qemu` is given: `save`, or `call_on_line` with a callback that raises
`TerminateTest` on some lines. -/
inductive Watch
  | save
  | callOnLine (isMatch raises : List UInt8 → Bool)

/-- What it puts into `on_output`. -/
def Watch.setup : Watch → OutputMonitor
  | .save => .save []
  | .callOnLine isMatch raises => .onLine isMatch raises ⟨[], []⟩

def Watch.raisesOn (line : List UInt8) : Watch → Bool
  | .save => false
  | .callOnLine isMatch raises => isMatch line && raises line

/-- A monitor that has seen all of an output. -/
def Watch.seen (output : List UInt8) : Watch → OutputMonitor
  | .save => .save output
  | .callOnLine isMatch raises =>
    .onLine isMatch raises ⟨(lineFraming.frames output).filter isMatch, lineFraming.left output⟩

/-- The lines that have ended and the packets that are complete in what is read, and whether one of
them ends the test. -/
def stops (watches : List Watch) (arrivals : List Arrival) : Bool :=
  ((lineFraming.frames (qemuOutput arrivals)).any fun line => watches.any (Watch.raisesOn line)) ||
    (packetFraming.frames (gdbText arrivals)).any isStop

theorem setup_raises (output : List UInt8) (w : Watch) :
    (w.setup.call output).2 = (lineFraming.frames output).any fun line => w.raisesOn line := by
  cases w with
  | save => simp [Watch.setup, Watch.raisesOn, OutputMonitor.call]
  | callOnLine isMatch raises =>
    exact (lineFraming.drain_stop (fun line => isMatch line && raises line) output).2.1

theorem setup_seen {output : List UInt8} {w : Watch}
    (calm : ((lineFraming.frames output).any fun line => w.raisesOn line) = false) :
    (w.setup.call output).1 = w.seen output := by
  cases w with
  | save => rfl
  | callOnLine isMatch raises =>
    obtain ⟨frames, stopped, rest⟩ :=
      lineFraming.drain_stop (fun line => isMatch line && raises line) output
    have all := Framing.upTo_eq_self calm
    simp only [Watch.setup, Watch.seen, OutputMonitor.call, handleOutput, List.nil_append]
    rw [frames, rest (stopped.trans calm)]
    exact congrArg (fun lines => OutputMonitor.onLine isMatch raises ⟨lines.filter isMatch, _⟩) all

/-- In whatever order the reactors are ready, and however what they read is cut, `__react` ends with
`TerminateTest` exactly when a line has ended that a callback raises on, or a packet is complete
that stops, and then with the turn that completes it. Otherwise it has read everything when it comes
to its deadline or to the end of both files, and the runner and every monitor have all of it. -/
theorem react_stops (out : List UInt8) (watches : List Watch) (events : List Event) :
    let start : Runner := ⟨out, watches.map Watch.setup, true, [], true⟩
    let arrivals := (untilEnd true true events).1
    ((react events start).1 = .terminated ↔ stops watches arrivals = true) ∧
    (stops watches arrivals = false → react events start = ((untilEnd true true events).2,
      { outbytes := out ++ qemuOutput arrivals
        onOutput := watches.map (Watch.seen (qemuOutput arrivals))
        proc := !arrivals.any Arrival.endsQemu
        gdbBuf := packetFraming.left (gdbText arrivals)
        sock := !arrivals.any Arrival.endsGdb })) ∧
    (stops watches arrivals = true → ∃ before last unread, arrivals = before ++ last :: unread ∧
      stops watches before = false ∧ stops watches (before ++ [last]) = true ∧
      (react events start).2.outbytes = out ++ qemuOutput (before ++ [last])) := by
  intro start arrivals
  have settled : start.Settled := by
    refine ⟨fun m member => ?_, rfl⟩
    obtain ⟨w, -, rfl⟩ := List.mem_map.mp member
    cases w with
    | save => rfl
    | callOnLine isMatch raises =>
      have done : lineFraming.drain (fun line => isMatch line && raises line) [] =
          ⟨[], false, []⟩ := Framing.drain_none rfl
      simp [Watch.setup, OutputMonitor.call, handleOutput, done]
  have ends (read : List Arrival) : start.ends read = stops watches read := by
    have lines : ((watches.map Watch.setup).any fun m => (m.call (qemuOutput read)).2) =
        (lineFraming.frames (qemuOutput read)).any fun line =>
          watches.any (Watch.raisesOn line) := by
      rw [List.any_map, Bool.eq_iff_iff]
      simp only [List.any_eq_true, Function.comp_apply, setup_raises]
      constructor
      · rintro ⟨w, watched, line, printed, raises⟩
        exact ⟨line, printed, w, watched, raises⟩
      · rintro ⟨line, printed, w, watched, raises⟩
        exact ⟨w, watched, line, printed, raises⟩
    rw [Runner.ends, lines, List.nil_append, (packetFraming.drain_stop isStop _).2.1]
    rfl
  obtain ⟨goesOn, ended⟩ := react_spec events settled
  rw [ends] at goesOn ended
  simp only [ends] at ended
  have calmRun : stops watches arrivals = false → _ := goesOn
  refine ⟨⟨fun terminated => ?_, fun stopped => ?_⟩, fun calm => ?_, fun stopped => ?_⟩
  · by_contra calm
    rw [calmRun (eq_false_of_ne_true calm)] at terminated
    exact untilEnd_ending true true events terminated
  · obtain ⟨before, last, unread, -, -, -, flag, -⟩ := ended stopped
    exact flag
  · obtain ⟨noLine, noPacket⟩ := Bool.or_eq_false_iff.mp calm
    have seen : ((watches.map Watch.setup).map fun m => (m.call (qemuOutput arrivals)).1) =
        watches.map (Watch.seen (qemuOutput arrivals)) := by
      rw [List.map_map]
      refine List.map_congr_left fun w watched => setup_seen ?_
      rw [List.any_eq_false] at noLine ⊢
      intro line printed raises
      exact noLine line printed (List.any_eq_true.mpr ⟨w, watched, raises⟩)
    have left := (packetFraming.drain_stop isStop (gdbText arrivals)).2
    rw [calmRun calm, Runner.after, List.nil_append, left.2 (left.1.trans noPacket), ← seen]
    rfl
  · obtain ⟨before, last, unread, split, calm, done, -, output⟩ := ended stopped
    exact ⟨before, last, unread, split, calm, done, output⟩

-- a breakpoint, in two pieces, while QEMU prints
example : (react [.ready (.qemu (literal "boot\nK")), .ready (.gdb (literal "+$T0")),
    .ready (.qemu (literal "> ")), .ready (.gdb (literal "5#b9")), .deadline]
      ⟨[], [.save []], true, [], true⟩).1 = .terminated := by decide +kernel

end Jos
