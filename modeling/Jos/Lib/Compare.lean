import Jos.Lib.String
import Jos.Library.ThreeWay

/-!
# lib/string.c: comparison

`strcmp`, `strncmp` and `memcmp` go through the same bytes and stop for different reasons. Where
they stop, their answer is that of the lexicographic order of the unsigned bytes.
-/
namespace Jos

open Library

/-- The bytes as `unsigned char`s. -/
def unsignedBytes (p : List UInt8) : List Nat := p.map UInt8.toNat

theorem unsignedBytes_inj {p q : List UInt8} : unsignedBytes p = unsignedBytes q ↔ p = q :=
  (List.map_injective_iff.mpr fun _ _ => UInt8.toNat_inj.mp).eq_iff

theorem toNat_pos {b : UInt8} (nonzero : 0 ≠ b) : 0 < b.toNat := by
  rw [Nat.pos_iff_ne_zero]
  exact fun zero => nonzero (UInt8.toNat_inj.mp zero.symm)

/-! ### The loops -/

theorem strncmp_cons (b c : UInt8) (p q : List UInt8) (n : Nat) :
    strncmp (b :: p) (c :: q) (n + 1) =
      if b ≠ 0 ∧ b = c then strncmp p q n else .ok ((b.toNat : Int) - (c.toNat : Int)) := by
  simp only [strncmp, ne_eq, charInt_eq_zero_iff, charInt_inj]

theorem strncmp_stop {b c : UInt8} (stop : b = 0 ∨ b ≠ c) (p q : List UInt8) (n : Nat) :
    strncmp (b :: p) (c :: q) (n + 1) = .ok ((b.toNat : Int) - (c.toNat : Int)) := by
  rw [strncmp_cons, if_neg]
  rintro ⟨nonzero, same⟩
  exact stop.elim nonzero (fun different => different same)

theorem strncmp_same {b : UInt8} (nonzero : 0 ≠ b) (p q : List UInt8) (n : Nat) :
    strncmp (b :: p) (b :: q) (n + 1) = strncmp p q n := by
  rw [strncmp_cons, if_pos ⟨Ne.symm nonzero, rfl⟩]

/-- A bound that lies behind the object is no bound. -/
theorem strcmp_eq_strncmp {p : List UInt8} (q : List UInt8) {n : Nat} (behind : p.length < n) :
    strcmp p q = strncmp p q n := by
  induction p generalizing q n with
  | nil =>
    obtain ⟨n, rfl⟩ := Nat.exists_eq_succ_of_ne_zero (Nat.ne_of_gt behind)
    rfl
  | cons b p ih =>
    obtain ⟨n, rfl⟩ := Nat.exists_eq_succ_of_ne_zero (Nat.ne_of_gt (Nat.zero_lt_of_lt behind))
    cases q with
    | nil => rfl
    | cons c q =>
      rw [strncmp_cons, strcmp, ih q (Nat.lt_of_succ_lt_succ behind)]

/-- Without a NUL to stop at, the two loops are the same. -/
theorem memcmp_eq_strncmp {p : List UInt8} (q : List UInt8) {n : Nat} (noNul : 0 ∉ p.take n) :
    memcmp p q n = strncmp p q n := by
  induction n generalizing p q with
  | zero => rw [memcmp, strncmp]
  | succ n ih =>
    cases p with
    | nil => rfl
    | cons b p =>
      obtain ⟨nonzero, later⟩ : 0 ≠ b ∧ 0 ∉ p.take n := by simpa using noNul
      cases q with
      | nil => rfl
      | cons c q =>
        by_cases same : b = c
        · subst same
          rw [memcmp, if_neg (not_not_intro rfl), ih q later, strncmp_same nonzero]
        · rw [memcmp, if_pos same, strncmp_stop (.inr same)]

/-! ### The answers -/

section Answers

variable {p q : List UInt8} (pNoNul : 0 ∉ p) (qNoNul : 0 ∉ q) (t u : List UInt8)
include pNoNul qNoNul

theorem strncmp_threeWay (n : Nat) : ∃ x, strncmp (p ++ 0 :: t) (q ++ 0 :: u) n = .ok x ∧
    ThreeWay x (unsignedBytes (p.take n)) (unsignedBytes (q.take n)) := by
  induction n generalizing p q with
  | zero => exact ⟨0, by rw [strncmp], .refl []⟩
  | succ n ih =>
    cases p with
    | nil =>
      cases q with
      | nil => exact ⟨0, by simp [strncmp_cons], .refl []⟩
      | cons c q =>
        -- a proper prefix is smaller: its NUL is below any other byte
        obtain ⟨nonzero, -⟩ : 0 ≠ c ∧ 0 ∉ q := by simpa using qNoNul
        have negative := (ThreeWay.sub 0 c.toNat).neg_iff.mpr (toNat_pos nonzero)
        exact ⟨_, strncmp_stop (.inl rfl) _ _ n, .nil_cons _ _ negative⟩
    | cons b p =>
      obtain ⟨nonzero, later⟩ : 0 ≠ b ∧ 0 ∉ p := by simpa using pNoNul
      cases q with
      | nil =>
        have positive := (ThreeWay.sub b.toNat 0).pos_iff.mpr (toNat_pos nonzero)
        exact ⟨_, strncmp_stop (.inr (Ne.symm nonzero)) _ _ n, .cons_nil _ _ positive⟩
      | cons c q =>
        obtain ⟨-, later'⟩ : 0 ≠ c ∧ 0 ∉ q := by simpa using qNoNul
        by_cases same : b = c
        · subst same
          obtain ⟨x, compared, answer⟩ := ih later later'
          refine ⟨x, ?_, answer.cons_self b.toNat⟩
          rw [List.cons_append, List.cons_append, strncmp_same nonzero, compared]
        · have different : b.toNat ≠ c.toNat := fun equal => same (UInt8.toNat_inj.mp equal)
          exact ⟨_, strncmp_stop (.inr same) _ _ n, (ThreeWay.sub _ _).cons_of_ne different _ _⟩

theorem strcmp_threeWay : ∃ x, strcmp (p ++ 0 :: t) (q ++ 0 :: u) = .ok x ∧
    ThreeWay x (unsignedBytes p) (unsignedBytes q) := by
  -- a bound behind both strings cuts neither of them off
  let n := (p ++ 0 :: t).length + q.length + 1
  have pWhole : p.take n = p := List.take_of_length_le (by simp [n]; omega)
  have qWhole : q.take n = q := List.take_of_length_le (by simp [n]; omega)
  obtain ⟨x, compared, answer⟩ := strncmp_threeWay pNoNul qNoNul t u n
  rw [pWhole, qWhole] at answer
  exact ⟨x, (strcmp_eq_strncmp _ (by omega)).trans compared, answer⟩

/-- `strcmp` answers 0 for equal strings only. -/
theorem strcmp_terminated :
    ∃ x, strcmp (p ++ 0 :: t) (q ++ 0 :: u) = .ok x ∧ (x = 0 ↔ p = q) := by
  obtain ⟨x, compared, answer⟩ := strcmp_threeWay pNoNul qNoNul t u
  exact ⟨x, compared, answer.eq_zero_iff.trans unsignedBytes_inj⟩

end Answers

/-! ### One order -/

/-- The answers to the comparisons of three strings, with any bytes behind them. -/
def OneOrder (p q r : List UInt8) (n : Nat) (t u w : List UInt8) : Prop :=
  ∃ pq qp qr pr pqN pqCut : Int,
    strcmp (p ++ 0 :: t) (q ++ 0 :: u) = .ok pq ∧
    strcmp (q ++ 0 :: u) (p ++ 0 :: t) = .ok qp ∧
    strcmp (q ++ 0 :: u) (r ++ 0 :: w) = .ok qr ∧
    strcmp (p ++ 0 :: t) (r ++ 0 :: w) = .ok pr ∧
    strncmp (p ++ 0 :: t) (q ++ 0 :: u) n = .ok pqN ∧
    strcmp (p.take n ++ 0 :: t) (q.take n ++ 0 :: u) = .ok pqCut ∧
    -- the lexicographic order of the unsigned bytes
    (pq < 0 ↔ unsignedBytes p < unsignedBytes q) ∧ (pq = 0 ↔ p = q) ∧
    (0 < pq ↔ unsignedBytes q < unsignedBytes p) ∧
    -- antisymmetric and transitive
    qp.sign = -pq.sign ∧
    (pq ≤ 0 → qr ≤ 0 → pr ≤ 0 ∧ (pq < 0 ∨ qr < 0 → pr < 0)) ∧
    -- of the first `n` bytes
    pqN.sign = pqCut.sign ∧
    (0 ∉ (p ++ 0 :: t).take n → 0 ∉ (q ++ 0 :: u).take n →
      ∃ x, memcmp (p ++ 0 :: t) (q ++ 0 :: u) n = .ok x ∧ x.sign = pqN.sign)

/-- The three functions compute one total order. -/
theorem comparisons_agree {p q r : List UInt8} (pNoNul : 0 ∉ p) (qNoNul : 0 ∉ q) (rNoNul : 0 ∉ r)
    (n : Nat) (t u w : List UInt8) : OneOrder p q r n t u w := by
  have pCut : 0 ∉ p.take n := fun member => pNoNul (List.mem_of_mem_take member)
  have qCut : 0 ∉ q.take n := fun member => qNoNul (List.mem_of_mem_take member)
  obtain ⟨pq, pqRun, pqAnswer⟩ := strcmp_threeWay pNoNul qNoNul t u
  obtain ⟨qp, qpRun, qpAnswer⟩ := strcmp_threeWay qNoNul pNoNul u t
  obtain ⟨qr, qrRun, qrAnswer⟩ := strcmp_threeWay qNoNul rNoNul u w
  obtain ⟨pr, prRun, prAnswer⟩ := strcmp_threeWay pNoNul rNoNul t w
  obtain ⟨pqN, boundRun, boundAnswer⟩ := strncmp_threeWay pNoNul qNoNul t u n
  obtain ⟨pqCut, cutRun, cutAnswer⟩ := strcmp_threeWay pCut qCut t u
  refine ⟨pq, qp, qr, pr, pqN, pqCut, pqRun, qpRun, qrRun, prRun, boundRun, cutRun,
    pqAnswer.neg_iff, pqAnswer.eq_zero_iff.trans unsignedBytes_inj, pqAnswer.pos_iff,
    pqAnswer.sign_swap qpAnswer, pqAnswer.trans qrAnswer prAnswer,
    boundAnswer.sign_eq cutAnswer, ?_⟩
  intro noNul _
  exact ⟨pqN, (memcmp_eq_strncmp _ noNul).trans boundRun, rfl⟩

/-- A byte above 0x7f, which is negative as a plain `char`, a prefix and a bound at the first
difference. -/
theorem comparisons_agree_high : OneOrder [0x61, 0xff] [0x61] [0x62] 1 [] [0x63] [] :=
  comparisons_agree (by decide) (by decide) (by decide) 1 [] [0x63] []

end Jos
