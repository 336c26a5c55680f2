import Jos.Lib.NumberWidth

/-!
# Unsigned conversions

`%u` and `%x` fetch their argument with `getuint`, `%o` fetches it with `getint` and prints a
sign where the top bit is set.
-/
namespace Jos

open Library

/-- A text of digits of a base and nothing else, with the number that it denotes. -/
def Denotes (base : Base) (out : List Int) (num : Nat) : Prop :=
  ∃ ds, ds ≠ [] ∧ (∀ d ∈ ds, d < base.value) ∧ out = ds.map digitCode ∧ horner base.value ds = num

theorem digitsText_denotes (base : Base) (num : Nat) : Denotes base (digitsText base num) num :=
  ⟨numeral base.value num, numeral_ne_nil base.value num, numeral_lt base.two_le, rfl,
    horner_numeral base.value num⟩

theorem not_denotes_minus {base : Base} {out : List Int} {num : Nat} :
    ¬Denotes base (ord '-' :: out) num := by
  rintro ⟨ds, nonempty, -, text, -⟩
  obtain ⟨d, ds, rfl⟩ := List.exists_cons_of_ne_nil nonempty
  rw [List.map_cons, List.cons.injEq] at text
  exact digitCode_ne_minus d text.1.symm

/-- The three conversions print the number `num` in their bases. -/
def UnsignedAgree (longs : Nat) (ap rest : VaList) (num : Nat) : Prop :=
  ∃ u o x, emitted (bareFormat longs 'u') ap = .ok (u, rest) ∧
    emitted (bareFormat longs 'o') ap = .ok (o, rest) ∧
    emitted (bareFormat longs 'x') ap = .ok (x, rest) ∧
    Denotes .decimal u num ∧ Denotes .octal o num ∧ Denotes .hexadecimal x num

/-- What the three conversions print for one argument. -/
theorem emitted_unsigned_conversions {longs : Nat} {ap rest : VaList} {unsigned signed : BitVec 64}
    (asUnsigned : getuint ap longs = .ok (unsigned, rest))
    (asSigned : getint ap longs = .ok (signed, rest)) :
    emitted (bareFormat longs 'u') ap = .ok (digitsText .decimal unsigned.toNat, rest) ∧
      emitted (bareFormat longs 'o') ap =
        .ok (signText signed ++ digitsText .octal signed.toInt.natAbs, rest) ∧
      emitted (bareFormat longs 'x') ap = .ok (digitsText .hexadecimal unsigned.toNat, rest) :=
  ⟨emitted_bare (unsigned_printsNumber asUnsigned) (by decide) unsigned.isLt,
    emitted_bare (octal_printsNumber asSigned) (by decide) (natAbs_lt signed),
    emitted_bare (hex_printsNumber asUnsigned) (by decide) unsigned.isLt⟩

/-- They agree unless the argument, taken as a signed one, is negative. -/
theorem unsignedAgree_fetched {longs : Nat} {ap rest : VaList} {num : BitVec 64}
    (argument : getuint ap longs = .ok (num, rest)) :
    UnsignedAgree longs ap rest num.toNat ↔ topBit longs num = false := by
  obtain ⟨signed, asSigned, sign⟩ := getint_of_getuint argument
  obtain ⟨decimal, octal, hexadecimal⟩ := emitted_unsigned_conversions argument asSigned
  constructor
  · rintro ⟨u, o, x, -, printed, -, -, denotes, -⟩
    by_contra set
    rw [if_pos (eq_true_of_ne_false set)] at sign
    -- the text of `%o` begins with the sign
    rw [octal, signText, if_pos sign] at printed
    cases printed
    exact not_denotes_minus denotes
  · intro clear
    rw [if_neg (by simp [clear])] at sign
    have value : signed.toInt.natAbs = num.toNat := by omega
    rw [signText, if_neg (by omega), List.nil_append, value] at octal
    exact ⟨_, _, _, decimal, octal, hexadecimal, digitsText_denotes .decimal _,
      digitsText_denotes .octal _, digitsText_denotes .hexadecimal _⟩

theorem unsignedAgree_word {longs : Nat} (short : longs < 2) (v : BitVec 32) (rest : VaList) :
    UnsignedAgree longs (.word v :: rest) rest v.toNat ↔ v.msb = false := by
  have fetched : getuint (.word v :: rest) longs = .ok (v.zeroExtend 64, rest) := by
    rw [getuint, if_neg (by omega)]
    rfl
  have zero : (v.zeroExtend 64).toNat = v.toNat := BitVec.toNat_setWidth_of_le (by decide)
  rw [← topBit_word short, ← unsignedAgree_fetched fetched, zero]

theorem unsignedAgree_dword (w : BitVec 64) (rest : VaList) :
    UnsignedAgree 2 (.dword w :: rest) rest w.toNat ↔ w.msb = false := by
  have fetched : getuint (.dword w :: rest) 2 = .ok (w, rest) := rfl
  rw [unsignedAgree_fetched fetched, topBit_dword (Nat.le_refl 2)]

/-- `%u`, `%o` and `%x`, without a modifier, with `l` and with `ll`, denote the argument's bit
pattern exactly when its top bit is clear. -/
theorem unsignedAgree_iff (v : BitVec 32) (w : BitVec 64) (rest : VaList) :
    (UnsignedAgree 0 (.word v :: rest) rest v.toNat ↔ v.msb = false) ∧
      (UnsignedAgree 1 (.word v :: rest) rest v.toNat ↔ v.msb = false) ∧
      (UnsignedAgree 2 (.dword w :: rest) rest w.toNat ↔ w.msb = false) :=
  ⟨unsignedAgree_word (by decide) v rest, unsignedAgree_word (by decide) v rest,
    unsignedAgree_dword w rest⟩

/-- `%o` of 0xffffffff is `-1`. -/
theorem unsignedAgree_minus_one :
    emitted (bareFormat 0 'o') [.word 0xffffffff] = .ok ([45, 49], []) ∧
      ¬UnsignedAgree 0 [.word 0xffffffff] [] 0xffffffff := by
  refine ⟨by decide +kernel, fun agree => ?_⟩
  have clear := (unsignedAgree_word (by decide) 0xffffffff []).mp agree
  exact absurd clear (by decide)

end Jos
