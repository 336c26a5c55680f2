import Jos.Kern.InputFifo

/-!
# What an overrun of the console input buffer loses

`cons_intr` does not look whether there is room. A burst into an empty buffer of 512 cells
leaves the remainder of its length modulo 512 unread, so a full turn loses everything.
-/
namespace Jos

open Library

/-- Calls of `cons_getc` without further device input return these characters. -/
def Returns (serialExists : Bool) (cons : Cons) (chars : List UInt8) : Prop :=
  ∃ cons', consRun serialExists (List.replicate chars.length (.getc [] [])) cons =
    .ok (toInts chars, cons')

/-- Of a burst, `cons_getc` still returns as many characters as the buffer can hold, in
their order of arrival. -/
def LosesOnlyOverrun (serialExists : Bool) (cons : Cons) (burst : List UInt8) : Prop :=
  ∃ chars, chars.Sublist burst ∧ min burst.length (CONSBUFSIZE - 1) ≤ chars.length ∧
    Returns serialExists cons chars

theorem consGetc_quiet (serialExists : Bool) (r : ConsRing) :
    consGetc serialExists [] [] (.ofRing r) =
      if r.rpos = r.wpos then .ok (0, .ofRing r)
      else .ok ((r.buf r.rpos).toNat, .ofRing r.pop) := by
  have quiet : (ConsOp.getc [] []).produced serialExists = [] := by
    cases serialExists <;> rfl
  have dequeue := consGetc_ofRing serialExists [] [] r
  rwa [quiet] at dequeue

/-- What can be read back is a prefix of what the ring holds. -/
theorem returns_iff (serialExists : Bool) (r : ConsRing) (chars : List UInt8)
    (nonzero : ∀ b ∈ chars, b ≠ 0) :
    Returns serialExists (.ofRing r) chars ↔ chars <+: r.contents := by
  induction chars generalizing r with
  | nil =>
    simp only [List.nil_prefix, iff_true]
    exact ⟨_, rfl⟩
  | cons b chars ih =>
    -- `cons_getc` returns the first one exactly if it is the oldest unread one
    have head : ¬b.toNat = 0 := fun zero =>
      nonzero b (by simp) (UInt8.toNat_inj.mp zero)
    have later := fun r => ih r (fun c member => nonzero c (by simp [member]))
    by_cases empty : r.rpos = r.wpos
    · rw [(Ring.contents_eq_nil_iff r).mpr empty]
      simp only [List.prefix_nil, reduceCtorEq, iff_false]
      rintro ⟨cons', run⟩
      rw [List.length_cons, List.replicate_succ, consRun, consGetc_quiet, if_pos empty,
        Exec.ok_bind] at run
      obtain ⟨_, _, first⟩ := Exec.bind_eq_ok.mp run
      simp [toInts] at first
      omega
    · rw [r.contents_pop empty, List.cons_prefix_cons, ← later]
      simp only [Returns, List.length_cons, List.replicate_succ, consRun, consGetc_quiet,
        if_neg empty, Exec.ok_bind]
      constructor
      · rintro ⟨cons', run⟩
        obtain ⟨⟨results, cons''⟩, rest, first⟩ := Exec.bind_eq_ok.mp run
        simp only [Exec.pure_eq_ok, toInts, List.map_cons, Except.ok.injEq, Prod.mk.injEq,
          List.cons.injEq, Int.ofNat_inj] at first
        obtain ⟨⟨same, rfl⟩, rfl⟩ := first
        exact ⟨UInt8.toNat_inj.mp same.symm, cons'', rest⟩
      · rintro ⟨rfl, cons', rest⟩
        exact ⟨cons', by rw [rest]; rfl⟩

/-- A burst into an empty ring leaves its last incomplete turn. -/
theorem losesOnlyOverrun_iff (serialExists : Bool) (r : ConsRing) (burst : List UInt8)
    (empty : r.rpos = r.wpos) (nonzero : ∀ b ∈ burst, b ≠ 0) :
    LosesOnlyOverrun serialExists (.ofRing (burst.foldl Ring.push r)) burst ↔
      burst.length < CONSBUFSIZE ∨ burst.length % CONSBUFSIZE = CONSBUFSIZE - 1 := by
  -- from the empty ring only the last incomplete turn stays
  have unread : (burst.foldl Ring.push r).contents =
      burst.drop (CONSBUFSIZE * (burst.length / CONSBUFSIZE)) := by
    rw [Ring.contents_pushes, (Ring.contents_eq_nil_iff r).mpr empty,
      (Ring.used_eq_zero_iff r).mpr empty, List.nil_append, Nat.zero_add]
  have length : (burst.drop (CONSBUFSIZE * (burst.length / CONSBUFSIZE))).length =
      burst.length % CONSBUFSIZE := by
    have := Nat.div_add_mod burst.length CONSBUFSIZE
    rw [List.length_drop]
    omega
  have bound := Nat.mod_lt burst.length (by decide : CONSBUFSIZE > 0)
  constructor
  · rintro ⟨chars, sublist, enough, returned⟩
    -- whatever comes back is unread, so it is no longer than that
    have prefix_ := (returns_iff serialExists _ chars
      (fun b member => nonzero b (sublist.subset member))).mp returned
    have short := prefix_.length_le
    rw [unread, length] at short
    omega
  · intro fits
    have sublist := List.drop_sublist (CONSBUFSIZE * (burst.length / CONSBUFSIZE)) burst
    refine ⟨_, sublist, ?_, (returns_iff serialExists _ _
      (fun b member => nonzero b (sublist.subset member))).mpr (by rw [unread])⟩
    rw [length]
    rcases fits with small | remainder
    · rw [Nat.mod_eq_of_lt small]
      exact Nat.min_le_left _ _
    · rw [remainder]
      exact Nat.min_le_right _ _

theorem consIntrData_burst (burst : List UInt8) (r : ConsRing) (nonzero : ∀ b ∈ burst, b ≠ 0) :
    consIntrData burst (.ofRing r) = .ok (.ofRing (burst.foldl Ring.push r)) := by
  have all : characters burst = burst := by
    rw [characters, List.filter_eq_self]
    simpa using nonzero
  rw [consIntrData_ofRing, all]

/-- An overrun loses only the overrun exactly if the burst makes no full turn of the buffer
or stops one short of the next. -/
theorem overrun_loses_only_overrun_iff (serialExists : Bool) (ops : List ConsOp)
    (results : List Int) (cons : Cons)
    (reached : consRun serialExists ops .zeroed = .ok (results, cons))
    (empty : cons.rpos = cons.wpos) (burst : List UInt8) (nonzero : ∀ b ∈ burst, b ≠ 0) :
    ∃ cons', consIntrData burst cons = .ok cons' ∧
      (LosesOnlyOverrun serialExists cons' burst ↔
        burst.length < CONSBUFSIZE ∨ burst.length % CONSBUFSIZE = CONSBUFSIZE - 1) := by
  obtain ⟨_, r, run⟩ := consRun_ofRing serialExists ops emptyRing
  -- the reached state is a ring
  have same := reached.symm.trans run
  simp only [Except.ok.injEq, Prod.mk.injEq] at same
  obtain ⟨_, rfl⟩ := same
  exact ⟨_, consIntrData_burst burst r nonzero,
    losesOnlyOverrun_iff serialExists r burst empty nonzero⟩

/-- Two characters are typed and read, and then 1023 come at once. -/
theorem overrun_loses_only_overrun_iff_moved :
    ∃ cons cons', consRun true [.intr [97, 98], .getc [] [], .getc [] []] .zeroed =
        .ok ([97, 98], cons) ∧ cons.rpos = 2 ∧
      consIntrData (List.replicate 1023 99) cons = .ok cons' ∧
      (LosesOnlyOverrun true cons' (List.replicate 1023 99) ↔
        (List.replicate 1023 (99 : UInt8)).length < CONSBUFSIZE ∨
          (List.replicate 1023 (99 : UInt8)).length % CONSBUFSIZE = CONSBUFSIZE - 1) := by
  have nonzero : ∀ b ∈ List.replicate 1023 (99 : UInt8), b ≠ 0 := by
    intro b member
    rw [List.eq_of_mem_replicate member]
    decide
  obtain ⟨cons, reached, moved, empty⟩ : ∃ cons,
      consRun true [.intr [97, 98], .getc [] [], .getc [] []] .zeroed = .ok ([97, 98], cons) ∧
        cons.rpos = 2 ∧ cons.rpos = cons.wpos := ⟨_, rfl, rfl, rfl⟩
  obtain ⟨cons', burst, exactly⟩ :=
    overrun_loses_only_overrun_iff true _ _ cons reached empty _ nonzero
  exact ⟨cons, cons', reached, moved, burst, exactly⟩

/-- A burst of exactly 512 characters is lost altogether. -/
theorem overrun_full_turn_loses_all :
    ∃ cons', consIntrData (List.replicate 512 97) .zeroed = .ok cons' ∧
      ¬LosesOnlyOverrun true cons' (List.replicate 512 97) := by
  have nonzero : ∀ b ∈ List.replicate 512 (97 : UInt8), b ≠ 0 := by
    intro b member
    rw [List.eq_of_mem_replicate member]
    decide
  refine ⟨_, consIntrData_burst _ emptyRing nonzero, ?_⟩
  rw [losesOnlyOverrun_iff true emptyRing _ rfl nonzero, List.length_replicate]
  decide

end Jos
