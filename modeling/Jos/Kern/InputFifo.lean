import Jos.Kern.ConsoleInput
import Jos.Library.Ring
import Mathlib.Data.List.Infix

/-!
# The console input buffer is a queue, as long as it does not overrun
-/
namespace Jos

open Library

/-- The characters among the bytes that a device delivers: zero means no character. -/
def characters (bytes : List UInt8) : List UInt8 := bytes.filter (· ≠ 0)

/-- The characters that the devices produce in one step. Without a serial port there is
nobody to produce its bytes. -/
def ConsOp.produced (serialExists : Bool) : ConsOp → List UInt8
  | .intr burst => characters burst
  | .getc serial kbd => characters (if serialExists then serial else []) ++ characters kbd

/-- What the buffer is for: a queue of the unread characters. -/
def ConsOp.next (serialExists : Bool) (unread : List UInt8) : ConsOp → List UInt8
  | op@(.intr _) => unread ++ op.produced serialExists
  | op@(.getc _ _) => (unread ++ op.produced serialExists).tail

/-- At most `CONSBUFSIZE - 1` characters are ever unread, starting from `unread`. -/
def NeverFull (serialExists : Bool) : List UInt8 → List ConsOp → Prop
  | _, [] => True
  | unread, op :: ops =>
    (unread ++ op.produced serialExists).length ≤ CONSBUFSIZE - 1 ∧
      NeverFull serialExists (op.next serialExists unread) ops

/-! ### The buffer is a ring -/

abbrev ConsRing := Ring UInt8 CONSBUFSIZE

def Cons.ofRing (r : ConsRing) : Cons := { buf := r.buf, rpos := r.rpos, wpos := r.wpos }

def emptyRing : ConsRing where
  buf := fun _ => 0
  rpos := 0
  wpos := 0
  rpos_lt := by decide
  wpos_lt := by decide

theorem characters_cons (b : UInt8) (bytes : List UInt8) :
    characters (b :: bytes) = if b = 0 then characters bytes else b :: characters bytes := by
  by_cases zero : b = 0 <;> simp [characters, zero]

/-- One turn of `cons_intr` on a ring: a character is pushed, a zero is passed over. -/
theorem consIntr_turn (b : UInt8) (bytes : List UInt8) (fuel : Nat) (r : ConsRing) :
    consIntr procData (fuel + 1) (b :: bytes) (.ofRing r) =
      consIntr procData fuel bytes (.ofRing (if b = 0 then r else r.push b)) := by
  have more : ¬(b.toNat : Int) = -1 := by omega
  by_cases zero : b = 0
  · simp [consIntr, procData, zero]
  · have char : ¬b.toNat = 0 := fun none => zero (UInt8.toNat_inj.mp none)
    have inside : (Cons.ofRing r).wpos < CONSBUFSIZE := r.wpos_lt
    simp only [consIntr, procData, ne_eq, more, not_false_eq_true, if_true, Int.natCast_eq_zero,
      char, zero, if_false, inside, ofInt_toNat]
    rfl

theorem consIntr_ofRing (bytes : List UInt8) (r : ConsRing) (fuel : Nat)
    (enough : bytes.length < fuel) :
    consIntr procData fuel bytes (.ofRing r) =
      .ok ([], .ofRing ((characters bytes).foldl Ring.push r)) := by
  induction bytes generalizing r fuel with
  | nil =>
    obtain ⟨fuel, rfl⟩ : ∃ n, fuel = n + 1 := ⟨fuel - 1, by simp at enough; omega⟩
    simp [consIntr, procData, characters]
  | cons b bytes ih =>
    obtain ⟨fuel, rfl⟩ : ∃ n, fuel = n + 1 := ⟨fuel - 1, by simp at enough; omega⟩
    have rest : bytes.length < fuel := by simpa using enough
    rw [consIntr_turn, ih _ fuel rest, characters_cons]
    by_cases zero : b = 0 <;> simp [zero]

theorem consIntrData_ofRing (bytes : List UInt8) (r : ConsRing) :
    consIntrData bytes (.ofRing r) = .ok (.ofRing ((characters bytes).foldl Ring.push r)) := by
  rw [consIntrData, consIntr_ofRing bytes r _ (by omega), Exec.map_ok]

/-- `cons_getc` first enqueues what the devices have ready, then dequeues. -/
theorem consGetc_ofRing (serialExists : Bool) (serial kbd : List UInt8) (r : ConsRing) :
    let polled := ((ConsOp.getc serial kbd).produced serialExists).foldl Ring.push r
    consGetc serialExists serial kbd (.ofRing r) =
      if polled.rpos = polled.wpos then .ok (0, .ofRing polled)
      else .ok ((polled.buf polled.rpos).toNat, .ofRing polled.pop) := by
  intro polled
  -- first both devices are polled
  have poll : (serialIntr serialExists serial (.ofRing r) >>= kbdIntr kbd) =
      .ok (Cons.ofRing polled) := by
    simp only [polled, ConsOp.produced, List.foldl_append]
    cases serialExists <;> simp [serialIntr, kbdIntr, consIntrData_ofRing, characters]
  obtain ⟨cons, first, second⟩ := Exec.bind_eq_ok.mp poll
  have inside : polled.rpos < CONSBUFSIZE := polled.rpos_lt
  simp only [consGetc, first, Exec.ok_bind, second]
  by_cases empty : polled.rpos = polled.wpos
  · simp [Cons.ofRing, empty]
  · simp only [Cons.ofRing, ne_eq, empty, not_false_eq_true, if_true, inside, if_false]
    rfl

/-- Every run stays inside the buffer, also one that overruns it. -/
theorem consRun_ofRing (serialExists : Bool) (ops : List ConsOp) (r : ConsRing) :
    ∃ results r', consRun serialExists ops (.ofRing r) = .ok (results, .ofRing r') := by
  induction ops generalizing r with
  | nil => exact ⟨[], r, rfl⟩
  | cons op ops ih =>
    cases op with
    | intr burst =>
      obtain ⟨results, r', returned⟩ := ih ((characters burst).foldl Ring.push r)
      exact ⟨results, r', by rw [consRun, consIntrData_ofRing, Exec.ok_bind, returned]⟩
    | getc serial kbd =>
      have dequeued : ∃ c r', consGetc serialExists serial kbd (.ofRing r) =
          .ok (c, .ofRing r') := by
        rw [consGetc_ofRing]
        split
        · exact ⟨_, _, rfl⟩
        · exact ⟨_, _, rfl⟩
      obtain ⟨c, polled, dequeue⟩ := dequeued
      obtain ⟨results, r', returned⟩ := ih polled
      exact ⟨c :: results, r', by simp [consRun, dequeue, returned]⟩

/-! ### The queue -/

/-- The unread characters of the buffer, oldest first. -/
def Cons.unread (cons : Cons) : List UInt8 :=
  (List.range (if cons.rpos ≤ cons.wpos then cons.wpos - cons.rpos
      else cons.wpos + CONSBUFSIZE - cons.rpos)).map
    fun k => cons.buf (Ring.slot CONSBUFSIZE cons.rpos k)

theorem emptyRing_contents : emptyRing.contents = [] := rfl

/-- A character as the `int` that `cons_getc` returns for it. -/
def toInts (chars : List UInt8) : List Int := chars.map fun b => (b.toNat : Int)

theorem toInts_append (xs ys : List UInt8) : toInts (xs ++ ys) = toInts xs ++ toInts ys :=
  List.map_append

theorem neverFull_append (serialExists : Bool) (unread : List UInt8) (ops more : List ConsOp) :
    NeverFull serialExists unread (ops ++ more) ↔ NeverFull serialExists unread ops ∧
      NeverFull serialExists (ops.foldl (ConsOp.next serialExists) unread) more := by
  induction ops generalizing unread with
  | nil => simp [NeverFull]
  | cons op ops ih => simp [NeverFull, ih, and_assoc]

theorem produced_ne_zero (serialExists : Bool) (op : ConsOp) :
    ∀ b ∈ op.produced serialExists, b ≠ 0 := by
  intro b member
  cases op <;> simp [ConsOp.produced, characters] at member
  · exact member.2
  · rcases member with serial | kbd
    · exact serial.2
    · exact kbd.2

/-- As long as it does not get full, `cons_getc` dequeues from the polled queue. -/
theorem consGetc_queue (serialExists : Bool) (serial kbd : List UInt8) (r : ConsRing)
    (nonzero : ∀ b ∈ r.contents, b ≠ 0)
    (room : (r.contents ++ (ConsOp.getc serial kbd).produced serialExists).length
      ≤ CONSBUFSIZE - 1) :
    ∃ c r', consGetc serialExists serial kbd (.ofRing r) = .ok (c, .ofRing r') ∧
      r'.contents = (ConsOp.getc serial kbd).next serialExists r.contents ∧
      [c].filter (· ≠ 0) ++ toInts r'.contents =
        toInts (r.contents ++ (ConsOp.getc serial kbd).produced serialExists) ∧
      (c = 0 ↔ r.contents ++ (ConsOp.getc serial kbd).produced serialExists = []) := by
  -- there is room for what the devices have ready
  have enqueued := Ring.contents_pushes_of_lt r
    ((ConsOp.getc serial kbd).produced serialExists) (by
      rw [List.length_append, Ring.length_contents] at room
      have := r.used_lt
      omega)
  have dequeue := consGetc_ofRing serialExists serial kbd r
  rw [ConsOp.next, ← enqueued]
  generalize ((ConsOp.getc serial kbd).produced serialExists).foldl Ring.push r = polled at *
  by_cases empty : polled.rpos = polled.wpos
  · have none := (Ring.contents_eq_nil_iff polled).mpr empty
    exact ⟨0, polled, by rw [dequeue, if_pos empty], by simp [none], by simp [none, toInts],
      by simp [none]⟩
  · have first := polled.contents_pop empty
    -- the dequeued byte is a character, so the result is not 0
    have member : polled.buf polled.rpos ∈ polled.contents := by rw [first]; simp
    have char : polled.buf polled.rpos ≠ 0 := by
      rw [enqueued, List.mem_append] at member
      rcases member with old | new
      · exact nonzero _ old
      · exact produced_ne_zero _ _ _ new
    have nonzero : ¬(polled.buf polled.rpos).toNat = 0 := fun zero =>
      char (UInt8.toNat_inj.mp zero)
    refine ⟨_, polled.pop, by rw [dequeue, if_neg empty], by rw [first, List.tail_cons], ?_, ?_⟩
    · rw [first]
      simp [toInts, nonzero]
    · rw [first]
      simp [nonzero]

theorem next_ne_zero (serialExists : Bool) (unread : List UInt8) (op : ConsOp)
    (nonzero : ∀ b ∈ unread, b ≠ 0) : ∀ b ∈ op.next serialExists unread, b ≠ 0 := by
  intro b member
  have inside : b ∈ unread ++ op.produced serialExists := by
    cases op with
    | intr burst => exact member
    | getc serial kbd => exact List.mem_of_mem_tail member
  rcases List.mem_append.mp inside with old | new
  · exact nonzero b old
  · exact produced_ne_zero serialExists op b new

/-- A run that never fills the buffer is a run of the queue. -/
theorem consRun_queue (serialExists : Bool) (ops : List ConsOp) (r : ConsRing)
    (nonzero : ∀ b ∈ r.contents, b ≠ 0) (room : NeverFull serialExists r.contents ops) :
    ∃ results r', consRun serialExists ops (.ofRing r) = .ok (results, .ofRing r') ∧
      r'.contents = ops.foldl (ConsOp.next serialExists) r.contents ∧
      results.filter (· ≠ 0) ++ toInts r'.contents =
        toInts (r.contents ++ ops.flatMap (ConsOp.produced serialExists)) := by
  induction ops generalizing r with
  | nil => exact ⟨[], r, rfl, rfl, by simp⟩
  | cons op ops ih =>
    obtain ⟨here, later⟩ := room
    -- the queue only ever holds characters
    have kept := next_ne_zero serialExists r.contents op nonzero
    cases op with
    | intr burst =>
      have enqueued : ((characters burst).foldl Ring.push r).contents =
          (ConsOp.intr burst).next serialExists r.contents :=
        Ring.contents_pushes_of_lt r _ (by
          rw [List.length_append, Ring.length_contents, ConsOp.produced] at here
          have := r.used_lt
          omega)
      obtain ⟨results, r', returned, final, fifo⟩ :=
        ih ((characters burst).foldl Ring.push r) (by rwa [enqueued]) (by rwa [enqueued])
      refine ⟨results, r', ?_, by rw [final, enqueued, List.foldl_cons], ?_⟩
      · rw [consRun, consIntrData_ofRing, Exec.ok_bind, returned]
      · rw [fifo, enqueued, ConsOp.next, List.flatMap_cons, List.append_assoc]
    | getc serial kbd =>
      obtain ⟨c, polled, dequeue, contents, order, _⟩ :=
        consGetc_queue serialExists serial kbd r nonzero here
      obtain ⟨results, r', returned, final, fifo⟩ := ih polled (by rwa [contents])
        (by rwa [contents])
      refine ⟨c :: results, r', by simp [consRun, dequeue, returned],
        by rw [final, contents, List.foldl_cons], ?_⟩
      rw [List.flatMap_cons, ← List.append_assoc, toInts_append, ← order, List.append_assoc,
        ← toInts_append, ← fifo, ← List.append_assoc, ← List.filter_append]
      rfl

/-- The console input ring is a lossless queue: no run leaves the buffer, and in a run that
never fills it the results of `cons_getc` and the characters still unread are what the
devices produced. -/
theorem cons_fifo (serialExists : Bool) (ops : List ConsOp) :
    ∃ results cons, consRun serialExists ops .zeroed = .ok (results, cons) ∧
      cons.rpos < CONSBUFSIZE ∧ cons.wpos < CONSBUFSIZE ∧
      (NeverFull serialExists [] ops →
        results.filter (· ≠ 0) ++ toInts cons.unread =
          toInts (ops.flatMap (ConsOp.produced serialExists)) ∧
        ∀ serial kbd, NeverFull serialExists [] (ops ++ [.getc serial kbd]) →
          ∃ c cons', consGetc serialExists serial kbd cons = .ok (c, cons') ∧
            (c = 0 ↔ cons.unread ++ (ConsOp.getc serial kbd).produced serialExists = [])) := by
  by_cases room : NeverFull serialExists [] ops
  · obtain ⟨results, r, returned, final, fifo⟩ :=
      consRun_queue serialExists ops emptyRing (by simp [emptyRing_contents])
        (by rwa [emptyRing_contents])
    rw [emptyRing_contents] at final fifo
    refine ⟨results, .ofRing r, returned, r.rpos_lt, r.wpos_lt, fun _ => ⟨fifo, ?_⟩⟩
    intro serial kbd more
    obtain ⟨_, polling, _⟩ := (neverFull_append serialExists [] ops _).mp more
    rw [← final] at polling
    -- a zero result is read as an empty queue, so no zero may be queued
    have nonzero : ∀ b ∈ r.contents, b ≠ 0 := by
      rw [final]
      exact List.foldlRecOn ops _ (by simp) fun unread nonzero op _ =>
        next_ne_zero serialExists unread op nonzero
    obtain ⟨c, r', dequeue, _, _, zero⟩ := consGetc_queue serialExists serial kbd r nonzero polling
    exact ⟨c, _, dequeue, zero⟩
  · obtain ⟨results, r, returned⟩ := consRun_ofRing serialExists ops emptyRing
    exact ⟨results, .ofRing r, returned, r.rpos_lt, r.wpos_lt, fun yes => absurd yes room⟩

end Jos
