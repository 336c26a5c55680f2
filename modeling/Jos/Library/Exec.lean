import Mathlib.Logic.Basic
import Mathlib.Data.List.Basic

/-!
# Runs of C code

A function of the C source is a Lean function into `Exec`: either the value it computes or
the way in which the run leaves what the language defines. Loops are `whileLoop` with an
explicit fuel; `whileLoop_total` is the only rule by which a loop is ever shown to end.
-/
namespace Library

/-- The ways a run can go wrong. Only `outOfFuel` belongs to the model rather than to C. -/
inductive Fault where
  | outOfBounds
  | badArgument
  | panicked
  | outOfFuel
  deriving DecidableEq, Repr

abbrev Exec := Except Fault

namespace Exec

variable {α β σ : Type}

@[simp] theorem ok_bind (a : α) (f : α → Exec β) : (Except.ok a >>= f) = f a := rfl

@[simp] theorem error_bind (e : Fault) (f : α → Exec β) :
    ((Except.error e : Exec α) >>= f) = .error e := rfl

@[simp] theorem bind_ok (x : Exec α) : (x >>= Except.ok) = x := by
  cases x <;> rfl

@[simp] theorem pure_eq_ok (a : α) : (pure a : Exec α) = .ok a := rfl

@[simp] theorem map_ok (f : α → β) (a : α) : (f <$> (Except.ok a : Exec α)) = .ok (f a) := rfl

theorem bind_eq_ok {x : Exec α} {f : α → Exec β} {b : β} :
    (x >>= f) = .ok b ↔ ∃ a, x = .ok a ∧ f a = .ok b := by
  cases x <;> simp

end Exec

/-! ### Machine integers -/

/-- `int` arithmetic of the machine: two's complement at 32 bits. -/
def int32 (x : Int) : Int := x.bmod 4294967296

theorem int32_of_range {x : Int} (low : -2147483648 ≤ x) (high : x < 2147483648) :
    int32 x = x := by
  unfold int32
  apply Int.bmod_eq_of_le <;> simp <;> omega

/-- An `int` differs from the exact result by a multiple of 2^32. -/
theorem int32_wraps (x : Int) : ∃ turns, int32 x = x - 4294967296 * turns ∧
    -2147483648 ≤ int32 x ∧ int32 x < 2147483648 := by
  have low := Int.le_bmod (x := x) (m := 4294967296) (by decide)
  have high := Int.bmod_lt (x := x) (m := 4294967296) (by decide)
  have turns := Int.bmod_eq_self_sub_mul_bdiv x 4294967296
  unfold int32
  exact ⟨x.bdiv 4294967296, turns, by omega, by omega⟩

@[simp] theorem int32_int32_add (x y : Int) : int32 (int32 x + y) = int32 (x + y) := by
  simp [int32, Int.bmod_add_bmod]

@[simp] theorem int32_int32_sub (x y : Int) : int32 (int32 x - y) = int32 (x - y) := by
  rw [Int.sub_eq_add_neg, int32_int32_add, Int.sub_eq_add_neg]

@[simp] theorem int32_int32 (x : Int) : int32 (int32 x) = int32 x := by
  have unchanged := int32_int32_add x 0
  rwa [Int.add_zero, Int.add_zero] at unchanged

@[simp] theorem int32_int32_mul (x y : Int) : int32 (int32 x * y) = int32 (x * y) := by
  simp [int32, Int.bmod_mul_bmod]

@[simp] theorem int32_neg_int32 (x : Int) : int32 (-int32 x) = int32 (-x) := by
  have scaled := int32_int32_mul x (-1)
  rwa [Int.mul_neg_one, Int.mul_neg_one] at scaled

/-- A plain `char` is signed, so reading a byte through it sign-extends. -/
def charInt (b : UInt8) : Int := if b.toNat < 128 then b.toNat else (b.toNat : Int) - 256

/-- Storing an `int` into a byte keeps its value modulo 256. -/
theorem toNat_ofInt (c : Int) : ((UInt8.ofInt c).toNat : Int) = c % 256 := by
  simp [UInt8.ofInt]
  omega

@[simp] theorem ofInt_toNat (b : UInt8) : UInt8.ofInt b.toNat = b := by
  have bound := b.toNat_lt
  have value := toNat_ofInt b.toNat
  apply UInt8.toNat_inj.mp
  omega

/-- A decidable property of bytes is checked by going through them. -/
theorem forall_byte {p : UInt8 → Prop} (each : ∀ n < 256, p (UInt8.ofNat n)) (b : UInt8) :
    p b := by
  have value := each b.toNat b.toNat_lt
  rwa [UInt8.ofNat_toNat] at value

/-! ### Objects -/

/-- Read element `i` of an array object; an index outside the object is a fault. -/
def readAt {α : Type} (xs : List α) (i : Int) : Exec α :=
  if 0 ≤ i then
    match xs[i.toNat]? with
    | some x => .ok x
    | none => .error .outOfBounds
  else .error .outOfBounds

theorem readAt_eq_ok_iff {α : Type} {xs : List α} {i : Int} {x : α} :
    readAt xs i = .ok x ↔ 0 ≤ i ∧ xs[i.toNat]? = some x := by
  unfold readAt
  by_cases nonneg : 0 ≤ i
  · cases h : xs[i.toNat]? <;> simp [nonneg]
  · simp [nonneg]

theorem readAt_natCast {α : Type} {xs : List α} {i : Nat} (h : i < xs.length) :
    readAt xs (i : Int) = .ok xs[i] := by
  rw [readAt_eq_ok_iff]
  simp [h]

theorem readAt_append {α : Type} (before : List α) (x : α) (after : List α) :
    readAt (before ++ x :: after) (before.length : Int) = .ok x :=
  readAt_eq_ok_iff.mpr ⟨Int.natCast_nonneg _, by simp⟩

@[simp] theorem readAt_head {α : Type} (x : α) (xs : List α) : readAt (x :: xs) 0 = .ok x := rfl

/-- Write element `i` of an array object. -/
def writeAt {α : Type} (xs : List α) (i : Int) (x : α) : Exec (List α) :=
  if 0 ≤ i ∧ i < xs.length then .ok (xs.set i.toNat x) else .error .outOfBounds

/-! ### Loops -/

variable {σ : Type}

/-- `while (cond) body` over the variables `σ` that the loop changes. -/
def whileLoop (cond : σ → Exec Bool) (body : σ → Exec σ) : Nat → σ → Exec σ
  | 0, _ => .error .outOfFuel
  | fuel + 1, s => do
    if ← cond s then
      let s' ← body s
      whileLoop cond body fuel s'
    else
      pure s

/-- Total correctness of a loop: an invariant that every turn keeps and a variant that
every turn lowers. -/
theorem whileLoop_total (cond : σ → Exec Bool) (body : σ → Exec σ)
    (inv : σ → Prop) (variant : σ → Nat)
    (turn : ∀ s, inv s → cond s = .ok false ∨
      (cond s = .ok true ∧ ∃ s', body s = .ok s' ∧ inv s' ∧ variant s' < variant s))
    (fuel : Nat) (s : σ) (initial : inv s) (enough : variant s < fuel) :
    ∃ s', whileLoop cond body fuel s = .ok s' ∧ inv s' ∧ cond s' = .ok false := by
  induction fuel generalizing s with
  | zero => omega
  | succ fuel ih =>
    rcases turn s initial with done | ⟨more, next, returned, kept, lower⟩
    · exact ⟨s, by simp [whileLoop, done], initial, done⟩
    · obtain ⟨s', result, final⟩ := ih next kept (by omega)
      exact ⟨s', by simp [whileLoop, more, returned, result], final⟩

/-- Two loops with the same turns, where the variables of the second are a function of those of
the first. -/
theorem whileLoop_map {τ : Type} (f : σ → τ) {cond : σ → Exec Bool} {body : σ → Exec σ}
    {cond' : τ → Exec Bool} {body' : τ → Exec τ} (inv : σ → Prop)
    (test : ∀ s, inv s → cond' (f s) = cond s)
    (turn : ∀ s, inv s → cond s = .ok true → body' (f s) = f <$> body s)
    (kept : ∀ s s', inv s → cond s = .ok true → body s = .ok s' → inv s')
    (fuel : Nat) (s : σ) (initial : inv s) :
    whileLoop cond' body' fuel (f s) = f <$> whileLoop cond body fuel s := by
  induction fuel generalizing s with
  | zero => rfl
  | succ fuel ih =>
    rw [whileLoop, whileLoop, test s initial]
    cases more : cond s with
    | error e => rfl
    | ok go =>
      cases go with
      | false => rfl
      | true =>
        simp only [Exec.ok_bind, if_true, turn s initial more]
        cases returned : body s with
        | error e => rfl
        | ok next => exact ih next (kept s next initial more returned)

/-- Where a loop returns, so does one whose turns follow its turns. -/
theorem whileLoop_refines {τ : Type} (R : τ → σ → Prop) {cond : σ → Exec Bool}
    {body : σ → Exec σ} (cond' : τ → Exec Bool) (body' : τ → Exec τ)
    (test : ∀ t s b, R t s → cond s = .ok b → cond' t = .ok b)
    (turn : ∀ t s s', R t s → cond s = .ok true → body s = .ok s' →
      ∃ t', body' t = .ok t' ∧ R t' s')
    {fuel : Nat} {t : τ} {s s' : σ} (related : R t s)
    (returned : whileLoop cond body fuel s = .ok s') :
    ∃ t', whileLoop cond' body' fuel t = .ok t' ∧ R t' s' := by
  induction fuel generalizing s t with
  | zero => cases returned
  | succ fuel ih =>
    rw [whileLoop] at returned
    obtain ⟨go, tested, rest⟩ := Exec.bind_eq_ok.mp returned
    rw [whileLoop, test t s go related tested, Exec.ok_bind]
    cases go with
    | false =>
      obtain rfl : s = s' := by simpa using rest
      exact ⟨t, rfl, related⟩
    | true =>
      obtain ⟨s₁, next, later⟩ := Exec.bind_eq_ok.mp rest
      obtain ⟨t₁, next', related₁⟩ := turn t s s₁ related tested next
      simpa [next'] using ih related₁ later

/-- The loop stops in `s'` after `n` turns. -/
inductive Turns (cond : σ → Exec Bool) (body : σ → Exec σ) : Nat → σ → σ → Prop
  | stop {s : σ} : cond s = .ok false → Turns cond body 0 s s
  | turn {n : Nat} {s s₁ s' : σ} : cond s = .ok true → body s = .ok s₁ →
      Turns cond body n s₁ s' → Turns cond body (n + 1) s s'

/-- The fuel of a loop bounds the number of its turns, and does nothing else. -/
theorem whileLoop_eq_ok_iff {cond : σ → Exec Bool} {body : σ → Exec σ} {fuel : Nat} {s s' : σ} :
    whileLoop cond body fuel s = .ok s' ↔ ∃ n < fuel, Turns cond body n s s' := by
  constructor
  · intro returned
    induction fuel generalizing s with
    | zero => cases returned
    | succ fuel ih =>
      obtain ⟨go, tested, rest⟩ := Exec.bind_eq_ok.mp returned
      cases go with
      | false =>
        obtain rfl : s = s' := by simpa using rest
        exact ⟨0, Nat.succ_pos fuel, .stop tested⟩
      | true =>
        obtain ⟨s₁, next, later⟩ := Exec.bind_eq_ok.mp rest
        obtain ⟨n, few, turns⟩ := ih later
        exact ⟨n + 1, Nat.succ_lt_succ few, .turn tested next turns⟩
  · rintro ⟨n, few, turns⟩
    induction turns generalizing fuel with
    | stop tested =>
      obtain ⟨fuel, rfl⟩ := Nat.exists_eq_succ_of_ne_zero (Nat.ne_of_gt few)
      simp [whileLoop, tested]
    | turn tested next _ ih =>
      obtain ⟨fuel, rfl⟩ := Nat.exists_eq_succ_of_ne_zero (Nat.ne_of_gt (Nat.zero_lt_of_lt few))
      simp [whileLoop, tested, next, ih (Nat.lt_of_succ_lt_succ few)]

end Library
