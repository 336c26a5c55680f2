import Jos.Kern.InputFifo
import Jos.Kern.Session

/-!
# From the devices to the screen

`getchar` polls the devices until there is a character. What the serial port and the keyboard
deliver, in whatever bursts, is what the user has typed in the session.
-/
namespace Jos

open Library

/-- `getchar()` while this happens to the input buffer: the character, if one comes, and what
happens after it. -/
def getchar (serialExists : Bool) : List ConsOp → Cons → Exec (Option Int × List ConsOp × Cons)
  | [], cons => pure (none, [], cons)
  | .intr burst :: ops, cons => do
    let cons ← consIntrData burst cons
    getchar serialExists ops cons
  | .getc serial kbd :: ops, cons => do
    let (c, cons) ← consGetc serialExists serial kbd cons
    if c = 0 then getchar serialExists ops cons
    else pure (some c, ops, cons)

/-- The characters that one call of `getchar` after the other returns. -/
def getchars (serialExists : Bool) : Nat → List ConsOp → Cons → Exec (List Int × Cons)
  | 0, _, _ => .error .outOfFuel
  | fuel + 1, ops, cons => do
    match ← getchar serialExists ops cons with
    | (none, _, cons) => pure ([], cons)
    | (some c, ops, cons) => do
      let (input, cons) ← getchars serialExists fuel ops cons
      pure (c :: input, cons)

theorem getchars_nil (serialExists : Bool) (fuel : Nat) (cons : Cons) :
    getchars serialExists (fuel + 1) [] cons = .ok ([], cons) := rfl

theorem getchars_intr (serialExists : Bool) (fuel : Nat) (burst : List UInt8) (ops : List ConsOp)
    (cons : Cons) : getchars serialExists (fuel + 1) (.intr burst :: ops) cons =
      consIntrData burst cons >>= getchars serialExists (fuel + 1) ops := by
  rw [getchars, getchar, bind_assoc]
  rfl

theorem getchars_getc {serialExists : Bool} {serial kbd : List UInt8} {cons cons' : Cons} {c : Int}
    (polled : consGetc serialExists serial kbd cons = .ok (c, cons')) (fuel : Nat)
    (ops : List ConsOp) : getchars serialExists (fuel + 1) (.getc serial kbd :: ops) cons =
      if c = 0 then getchars serialExists (fuel + 1) ops cons'
      else (fun r => (c :: r.1, r.2)) <$> getchars serialExists fuel ops cons' := by
  rw [getchars, getchar, polled, Exec.ok_bind]
  dsimp only
  split
  · rfl
  · rfl

/-- They are the results of `cons_getc` other than 0. -/
theorem getchars_eq {serialExists : Bool} {ops : List ConsOp} {cons cons' : Cons}
    {results : List Int} (ran : consRun serialExists ops cons = .ok (results, cons')) {fuel : Nat}
    (enough : ops.length ≤ fuel) :
    getchars serialExists (fuel + 1) ops cons = .ok (results.filter (· ≠ 0), cons') := by
  induction ops generalizing cons results fuel with
  | nil =>
    cases ran
    exact getchars_nil serialExists fuel _
  | cons op ops ih =>
    rw [List.length_cons] at enough
    cases op with
    | intr burst =>
      obtain ⟨cons₁, stored, rest⟩ := Exec.bind_eq_ok.mp ran
      rw [getchars_intr, stored, Exec.ok_bind]
      exact ih rest (by omega)
    | getc serial kbd =>
      obtain ⟨⟨c, cons₁⟩, polled, rest⟩ := Exec.bind_eq_ok.mp ran
      obtain ⟨⟨later, last⟩, run, returned⟩ := Exec.bind_eq_ok.mp rest
      cases returned
      rw [getchars_getc polled]
      by_cases none : c = 0
      · rw [if_pos none, ih run (by omega), none]
        rfl
      · obtain ⟨fuel, rfl⟩ : ∃ n, fuel = n + 1 := ⟨fuel - 1, by omega⟩
        rw [if_neg none, ih run (by omega), Exec.map_ok,
          List.filter_cons_of_pos (by simpa using none)]

variable (k : Kernel)

/-- From power-on: as long as the input buffer never fills up, the session is that of a user who
types what the devices deliver, in their order and without a loss, up to what is still unread. -/
theorem Kernel.devices_session (stack : Nat → CommandStack k.symbols) {serialExists : Bool}
    {ops : List ConsOp} (room : NeverFull serialExists [] ops) {buf : List UInt8}
    (size : buf.length = BUFLEN) {con : Console} (inside : con.crtPos.toNat < CRT_SIZE) :
    ∃ input cons ed, getchars serialExists (ops.length + 1) ops .zeroed = .ok (input, cons) ∧
      input ++ toInts cons.unread = toInts (ops.flatMap (ConsOp.produced serialExists)) ∧
      k.monitor stack 0 input buf con = .ok (.reading (lineEnds input) ed) ∧
      ∃ inside' : ed.con.crtPos.toNat < CRT_SIZE, ed.con.terminal inside' =
        (typedText (k.sessionText stack input)).foldl (Terminal.act blankCell)
          (con.terminal inside) := by
  obtain ⟨results, r, ran, -, fifo⟩ := consRun_queue serialExists ops emptyRing
    (by simp [emptyRing_contents]) (by rwa [emptyRing_contents])
  rw [emptyRing_contents, List.nil_append] at fifo
  have bytes : ∀ c ∈ results.filter (· ≠ 0), 1 ≤ c ∧ c ≤ 255 := by
    intro c member
    have delivered : c ∈ toInts (ops.flatMap (ConsOp.produced serialExists)) := by
      rw [← fifo]
      exact List.mem_append_left _ member
    obtain ⟨b, -, rfl⟩ := List.mem_map.mp delivered
    have nonzero := (List.mem_filter.mp member).2
    have byte := b.toNat_lt
    simp only [decide_eq_true_eq] at nonzero
    omega
  obtain ⟨ed, run, -, -, shows⟩ := k.monitor_shows stack size (shows_screen inside) bytes
  exact ⟨results.filter (· ≠ 0), .ofRing r, ed, getchars_eq ran (Nat.le_refl _), fifo, run,
    shows.bound, shows.terminal_typed inside⟩

/-- A keyboard burst that is longer than a line, taken up by two polls. -/
theorem devices_session_burst :
    ∃ input cons ed, getchars true 4
        [.intr [0x78, 0x0d, 0, 0x79], .getc [] [0x7a], .getc [0x77] []] .zeroed =
          .ok (input, cons) ∧
      input ++ toInts cons.unread = [0x78, 0x0d, 0x79, 0x7a, 0x77] ∧
      smallKernel.monitor (fun _ => smallCommandStack) 0 input (List.replicate 1024 0)
        ⟨fun _ => 0, .cga, 0, []⟩ = .ok (.reading (lineEnds input) ed) := by
  obtain ⟨input, cons, ed, delivered, order, run, -⟩ := @Kernel.devices_session smallKernel
    (fun _ => smallCommandStack) true
    [.intr [0x78, 0x0d, 0, 0x79], .getc [] [0x7a], .getc [0x77] []]
    ⟨by decide, by decide, by decide, trivial⟩ (List.replicate 1024 0) List.length_replicate
    ⟨fun _ => 0, .cga, 0, []⟩ (by decide)
  exact ⟨input, cons, ed, delivered, order, run⟩

end Jos
