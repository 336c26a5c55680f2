import Jos.Lib.ErrorCodes

/-!
# vsnprintf

With arguments of the kinds that its format demands, `vprintfmt` prints a text; `vsnprintf`
keeps as much of it as fits, terminates it, and counts all of it.
-/
namespace Jos

open Library

/-! ### Matching arguments -/

/-- What an argument has to be for a conversion or a `*`. -/
inductive Demand where
  | word | dword | string | error
  deriving DecidableEq

def Demand.accepts : Demand → Arg → Prop
  | .word, .word _ | .word, .ptr _ _ => True
  | .dword, .dword _ => True
  -- a null pointer, or a terminated string
  | .string, .word v => v = 0
  | .string, .ptr addr obj => addr = 0 ∨ 0 ∈ obj
  -- its negation is to be an int
  | .error, .word v | .error, .ptr v _ => v.toInt ≠ -2147483648
  | _, _ => False

def Conversion.demands (lflag : Nat) : Conversion → List Demand
  | .char | .pointer => [.word]
  | .error => [.error]
  | .string => [.string]
  | .decimal | .unsigned | .octal | .hex => if lflag ≥ 2 then [.dword] else [.word]
  | .percent => []

def starDemands (s : List UInt8) : List Demand := List.replicate (s.count '*'.toUInt8) .word

def Directive.demands : Directive → List Demand
  | .text _ => []
  | .escape s c => starDemands s ++ c.demands (s.count 'l'.toUInt8)
  | .stray s | .cut s => starDemands s

/-- The arguments begin with what is demanded. -/
def Meets : List Demand → VaList → Prop
  | [], _ => True
  | demand :: demands, a :: ap => demand.accepts a ∧ Meets demands ap
  | _ :: _, [] => False

def Matches (fmt : CString) (ap : VaList) : Prop :=
  Meets ((directives fmt.bytes).flatMap Directive.demands) ap

theorem meets_append (ks ls : List Demand) (ap : VaList) :
    Meets (ks ++ ls) ap ↔ Meets ks ap ∧ Meets ls (ap.drop ks.length) := by
  induction ks generalizing ap with
  | nil => simp [Meets]
  | cons k ks ih =>
    cases ap with
    | nil => simp [Meets]
    | cons a ap => simp [Meets, ih, and_assoc]

/-! ### Matching arguments are enough -/

theorem vaInt_word {ap : VaList} (met : Meets [.word] ap) :
    ∃ v, vaInt ap = .ok (v, ap.drop 1) := by
  rcases ap with _ | ⟨a, ap⟩
  · exact met.elim
  · cases a <;> simp_all [vaInt, Meets, Demand.accepts]

theorem vaInt_error {ap : VaList} (met : Meets [.error] ap) :
    ∃ v, vaInt ap = .ok (v, ap.drop 1) ∧ v.toInt ≠ -2147483648 := by
  rcases ap with _ | ⟨a, ap⟩
  · exact met.elim
  · cases a <;> simp_all [vaInt, Meets, Demand.accepts]

theorem vaLongLong_dword {ap : VaList} (met : Meets [.dword] ap) :
    ∃ v, vaLongLong ap = .ok (v, ap.drop 1) := by
  rcases ap with _ | ⟨a, ap⟩
  · exact met.elim
  · cases a <;> simp_all [vaLongLong, Meets, Demand.accepts]

theorem vaString_string {ap : VaList} (met : Meets [.string] ap) :
    ∃ p, vaString ap = .ok (p, ap.drop 1) ∧ ∀ s, p = some s → 0 ∈ s := by
  rcases ap with _ | ⟨a, ap⟩
  · exact met.elim
  · cases a with
    | word v => simp_all [vaString, Meets, Demand.accepts]
    | dword v => simp_all [Meets, Demand.accepts]
    | ptr addr obj =>
      refine ⟨_, rfl, ?_⟩
      intro s found
      split at found
      · cases found
      · next nonnull =>
        cases found
        exact met.1.resolve_left nonnull

theorem getuint_number {ap : VaList} {lflag : Nat}
    (met : Meets (if lflag ≥ 2 then [.dword] else [.word]) ap) :
    ∃ num, getuint ap lflag = .ok (num, ap.drop 1) := by
  unfold getuint
  split
  · next long => exact vaLongLong_dword (by rwa [if_pos long] at met)
  · next short =>
    obtain ⟨v, taken⟩ := vaInt_word (by rwa [if_neg short] at met)
    exact ⟨_, by rw [taken]; rfl⟩

theorem getint_number {ap : VaList} {lflag : Nat}
    (met : Meets (if lflag ≥ 2 then [.dword] else [.word]) ap) :
    ∃ num, getint ap lflag = .ok (num, ap.drop 1) := by
  obtain ⟨num, taken⟩ := getuint_number met
  exact ⟨_, by rw [getint_eq, taken]; rfl⟩

theorem count_dropWhile_digits (s : List UInt8) (c : UInt8) (other : isDigit c = false) :
    (s.dropWhile isDigit).count c = s.count c := by
  -- the digits that are passed contain no such byte
  have none : (s.takeWhile isDigit).count c = 0 := by
    rw [List.count_eq_zero]
    intro member
    simp [List.mem_takeWhile_imp member] at other
  calc
    _ = (s.takeWhile isDigit ++ s.dropWhile isDigit).count c := by rw [List.count_append, none]; omega
    _ = s.count c := by rw [List.takeWhile_append_dropWhile]

theorem label_star (b : UInt8) : switchLabel b = .star ↔ b = '*'.toUInt8 :=
  forall_byte (p := fun b => switchLabel b = .star ↔ b = '*'.toUInt8) (by decide +kernel) b

theorem label_long (b : UInt8) : switchLabel b = .long ↔ b = 'l'.toUInt8 :=
  forall_byte (p := fun b => switchLabel b = .long ↔ b = 'l'.toUInt8) (by decide +kernel) b

theorem count_star (b : UInt8) (s : List UInt8) : (b :: s).count '*'.toUInt8 =
    (if switchLabel b = .star then 1 else 0) + s.count '*'.toUInt8 := by
  simp only [List.count_cons, beq_iff_eq, ← label_star]
  omega

theorem count_long (b : UInt8) (s : List UInt8) : (b :: s).count 'l'.toUInt8 =
    (if switchLabel b = .long then 1 else 0) + s.count 'l'.toUInt8 := by
  simp only [List.count_cons, beq_iff_eq, ← label_long]
  omega

/-- The flags consume one word for every `*` and count every `l`. -/
theorem applyFlags_meets {s : List UInt8} (flags : Flags) {ap : VaList}
    (met : Meets (starDemands s) ap) :
    ∃ flags', applyFlags s flags ap = .ok (flags', ap.drop (s.count '*'.toUInt8)) ∧
      flags'.lflag = flags.lflag + s.count 'l'.toUInt8 := by
  induction s, flags, ap using applyFlags.induct with
  | case1 flags ap =>
    rw [applyFlags]
    exact ⟨flags, rfl, rfl⟩
  | case4 b s flags ap label precision ih =>
    -- a width holds neither `*` nor `l`
    have stars := count_dropWhile_digits s '*'.toUInt8 (by decide)
    have longs := count_dropWhile_digits s 'l'.toUInt8 (by decide)
    simp only [starDemands, count_star, label, reduceCtorEq, if_false, Nat.zero_add, ← stars] at met
    obtain ⟨flags', applied, lflag⟩ := ih met
    rw [applyFlags, count_star, count_long, ← stars, ← longs]
    simp only [label]
    exact ⟨flags', by simpa using applied, by simpa using lflag⟩
  | case5 b s flags ap label ih =>
    simp only [starDemands, count_star, label, if_true, List.replicate_add, meets_append] at met
    obtain ⟨v, taken⟩ := vaInt_word met.1
    obtain ⟨flags', applied, lflag⟩ := ih v (ap.drop 1) met.2
    rw [applyFlags, count_star, count_long]
    simp only [label, taken, Exec.ok_bind]
    exact ⟨flags', by simpa [Nat.add_comm] using applied, by simpa using lflag⟩
  | case8 b s flags ap label ih =>
    simp only [starDemands, count_star, label, reduceCtorEq, if_false, Nat.zero_add] at met
    obtain ⟨flags', applied, lflag⟩ := ih met
    rw [applyFlags, count_star, count_long]
    simp only [label]
    exact ⟨flags', by simpa using applied, by rw [lflag]; simp; omega⟩
  | case9 b s flags ap _ _ _ star _ _ long ih =>
    simp only [starDemands, count_star, if_neg star, Nat.zero_add] at met
    obtain ⟨flags', applied, lflag⟩ := ih met
    rw [applyFlags, count_star, count_long]
    cases label : switchLabel b <;> simp_all
  | _ b s flags ap label ih =>
    simp only [starDemands, count_star, label, reduceCtorEq, if_false, Nat.zero_add] at met
    obtain ⟨flags', applied, lflag⟩ := ih met
    rw [applyFlags, count_star, count_long]
    simp only [label]
    exact ⟨flags', by simpa using applied, by simpa using lflag⟩

theorem stringText_terminated (flags : Flags) {p : List UInt8} (terminated : 0 ∈ p) :
    ∃ out, stringText flags p = .ok out := by
  rw [stringText, if_pos (.inl terminated)]
  dsimp only
  split <;> exact ⟨_, rfl⟩

theorem errorText_exists {v : BitVec 32} (negatable : v.toInt ≠ -2147483648) :
    ∃ out, errorText v.toInt = .ok out := ⟨_, errorText_eq negatable⟩

theorem convertText_meets {flags : Flags} {ap : VaList} {c : Conversion}
    (met : Meets (c.demands flags.lflag) ap) :
    ∃ out, convertText flags ap c = .ok (out, ap.drop (c.demands flags.lflag).length) := by
  have length : (if flags.lflag ≥ 2 then [Demand.dword] else [.word]).length = 1 := by
    split <;> rfl
  cases c with
  | percent => exact ⟨_, rfl⟩
  | char | pointer =>
    obtain ⟨v, taken⟩ := vaInt_word met
    exact ⟨_, by rw [convertText, taken]; rfl⟩
  | error =>
    obtain ⟨v, taken, negatable⟩ := vaInt_error met
    obtain ⟨out, message⟩ := errorText_exists negatable
    exact ⟨out, by simp [convertText, taken, message, Conversion.demands]⟩
  | string =>
    obtain ⟨p, taken, terminated⟩ := vaString_string met
    have ended : 0 ∈ p.getD (literal "(null)" ++ [0]) := by
      cases p with
      | none => simp
      | some p => exact terminated p rfl
    obtain ⟨out, message⟩ := stringText_terminated flags ended
    exact ⟨out, by simp [convertText, taken, message, Conversion.demands]⟩
  | decimal | octal =>
    obtain ⟨num, taken⟩ := getint_number met
    exact ⟨_, by rw [convertText, taken, Conversion.demands, length]; rfl⟩
  | unsigned | hex =>
    obtain ⟨num, taken⟩ := getuint_number met
    exact ⟨_, by rw [convertText, taken, Conversion.demands, length]; rfl⟩

theorem Directive.textOf_meets {directive : Directive} {ap : VaList}
    (met : Meets directive.demands ap) :
    ∃ out, directive.textOf ap = .ok (out, ap.drop directive.demands.length) := by
  cases directive with
  | text b => exact ⟨_, rfl⟩
  | escape s c =>
    rw [demands, meets_append] at met
    obtain ⟨flags, applied, lflag⟩ := applyFlags_meets {} met.1
    have met' := met.2
    rw [show s.count 'l'.toUInt8 = flags.lflag by rw [lflag]; simp] at met'
    obtain ⟨out, text⟩ := convertText_meets met'
    refine ⟨out, ?_⟩
    rw [textOf, applied, Exec.ok_bind]
    simpa [demands, starDemands, lflag, List.drop_drop] using text
  | stray s | cut s =>
    obtain ⟨flags, applied, _⟩ := applyFlags_meets {} met
    exact ⟨_, by simp [textOf, applied, demands, starDemands]; rfl⟩

/-- Matching arguments have a text. -/
theorem formatText_meets {ds : List Directive} {ap : VaList}
    (met : Meets (ds.flatMap Directive.demands) ap) :
    ∃ out rest, formatText ds ap = .ok (out, rest) := by
  induction ds generalizing ap with
  | nil => exact ⟨_, _, rfl⟩
  | cons directive ds ih =>
    rw [List.flatMap_cons, meets_append] at met
    obtain ⟨out, head⟩ := Directive.textOf_meets met.1
    obtain ⟨more, rest, tail⟩ := ih met.2
    exact ⟨out ++ more, rest, by simp [formatText, head, tail]⟩

/-! ### The buffer -/

theorem writeAt_next (written free : List UInt8) (old b : UInt8) :
    writeAt (written ++ old :: free) written.length b = .ok ((written ++ [b]) ++ free) := by
  simp [writeAt]

/-- Printing into what is left of a buffer: `room` characters still fit before the NUL. -/
theorem putAll_sprintputch (out : List Int) (written free : List UInt8) (room : Nat)
    (inside : room < free.length) (cnt : Int) :
    putAll sprintputch out ⟨written ++ free, written.length, written.length + room, int32 cnt⟩ =
      .ok ⟨written ++ (out.take room).map UInt8.ofInt ++ free.drop (min room out.length),
        written.length + min room out.length, written.length + room,
        int32 (cnt + out.length)⟩ := by
  induction out generalizing written free room cnt with
  | nil => simp
  | cons ch out ih =>
    have count : cnt + 1 + out.length = cnt + (ch :: out).length := by
      rw [List.length_cons]
      omega
    rw [putAll_cons, sprintputch]
    cases room with
    | zero =>
      -- the buffer is full, and the character is only counted
      have later := ih written free 0 inside (cnt + 1)
      rw [count] at later
      simpa using later
    | succ room =>
      obtain ⟨old, free, rfl⟩ := List.exists_cons_of_ne_nil (List.ne_nil_of_length_pos
        (Nat.lt_of_le_of_lt (Nat.zero_le _) inside))
      -- the character goes to the first free byte
      have later := ih (written ++ [UInt8.ofInt ch]) free room (by simpa using inside) (cnt + 1)
      have start : ((written ++ [UInt8.ofInt ch]).length : Int) = written.length + 1 := by simp
      have stop : (written.length : Int) + 1 + room = written.length + (room + 1 : Nat) := by omega
      have cells : (written.length : Int) + 1 + (min room out.length : Nat) =
          written.length + (min (room + 1) (ch :: out).length : Nat) := by
        rw [List.length_cons]
        omega
      rw [start, stop, cells, count] at later
      dsimp only
      rw [if_pos (by omega), writeAt_next]
      simp only [int32_int32_add, Exec.ok_bind, Exec.pure_eq_ok, later]
      simp [Nat.add_min_add_right]

/-- What `vsnprintf` leaves of a text in a buffer of `n` bytes. -/
def stored (n : Int) (full : List Int) : List UInt8 :=
  (full.take (n - 1).toNat).map UInt8.ofInt

theorem vsnprintf_text {fmt : List UInt8} (noNul : 0 ∉ fmt) {args rest : VaList}
    {full : List Int} (text : formatText (directives fmt) args = .ok (full, rest))
    (countable : full.length < 2147483648) (object : List UInt8) (n : Int) (positive : 1 ≤ n)
    (inside : n ≤ object.length) :
    vsnprintf (some object) n (fmt ++ [0]) args =
      .ok (full.length,
        some (stored n full ++ 0 :: object.drop ((stored n full).length + 1))) := by
  obtain ⟨room, rfl⟩ : ∃ room : Nat, n = room + 1 := ⟨(n - 1).toNat, by omega⟩
  have printed := putAll_sprintputch full [] object room (by omega) 0
  have count : int32 (0 + full.length) = full.length := by
    rw [Int.zero_add]
    exact int32_of_range (by omega) (by omega)
  -- what is stored is shorter than the buffer, so the NUL still fits
  have cells : (stored (room + 1) full).length = min room full.length := by simp [stored]
  have within : (stored (room + 1) full).length < object.length := by omega
  rw [count, List.nil_append, show (full.take room).map UInt8.ofInt = stored (room + 1) full by
    simp [stored], ← cells, List.drop_eq_getElem_cons within] at printed
  have start : (⟨object, 0, room + 1 - 1, 0⟩ : Sprintbuf) =
      ⟨[] ++ object, ([] : List UInt8).length, ([] : List UInt8).length + room, int32 0⟩ := by
    simp [show int32 0 = 0 by decide]
  simp only [vsnprintf, if_neg (show ¬(room + 1 : Int) < 1 by omega), start,
    vprintfmt_text sprintputch noNul _ text]
  rw [List.nil_append, printed]
  simp only [Exec.ok_bind, Exec.pure_eq_ok, List.length_nil, Int.natCast_zero, Int.zero_add,
    List.nil_append, writeAt_next]
  rw [List.append_assoc, List.singleton_append]

/-- A null buffer and a size below 1 are refused, and nothing is written. -/
theorem vsnprintf_invalid (buf : Option (List UInt8)) (n : Int) (fmt : List UInt8)
    (args : VaList) (invalid : buf = none ∨ n < 1) :
    vsnprintf buf n fmt args = .ok (-E_INVAL, buf) := by
  cases buf with
  | none => rfl
  | some object => simp [vsnprintf, invalid.resolve_left (by simp)]

theorem stored_prefix {n m : Int} (le : n ≤ m) (full : List Int) :
    stored n full = (stored m full).take (n - 1).toNat := by
  rw [stored, stored, ← List.map_take, List.take_take, Nat.min_eq_left (by omega)]

/-- What `vsnprintf` does with a text of a format, in buffers of any size. -/
structure Bounded (fmt : CString) (args : VaList) (full : List Int) : Prop where
  fills : ∀ object n, 1 ≤ n → n ≤ object.length →
    vsnprintf (some object) n fmt.object args = .ok (full.length,
      some (stored n full ++ 0 :: object.drop ((stored n full).length + 1)))
  agrees : ∀ n m small large, 1 ≤ n → n ≤ m → n ≤ small.length → m ≤ large.length →
    ∃ count s s' tail tail',
      vsnprintf (some small) n fmt.object args = .ok (count, some (s ++ 0 :: tail)) ∧
      vsnprintf (some large) m fmt.object args = .ok (count, some (s' ++ 0 :: tail')) ∧
      s = s'.take (n - 1).toNat

/-- `vsnprintf` keeps what fits, terminates it and counts everything. -/
theorem vsnprintf_bounded (fmt : CString) (args : VaList) (matching : Matches fmt args) :
    (∃ full rest, emitted fmt.bytes args = .ok (full, rest) ∧
      (full.length < 2147483648 → Bounded fmt args full)) ∧
    ∀ buf n, buf = none ∨ n < 1 → vsnprintf buf n fmt.object args = .ok (-E_INVAL, buf) := by
  obtain ⟨full, rest, text⟩ := formatText_meets matching
  refine ⟨⟨full, rest, (emitted_iff fmt.noNul ..).mpr text, fun countable => ⟨?_, ?_⟩⟩, ?_⟩
  · intro object n positive inside
    exact vsnprintf_text fmt.noNul text countable object n positive inside
  · intro n m small large positive le inside inside'
    -- the size only cuts the same text
    exact ⟨full.length, stored n full, stored m full, _, _,
      vsnprintf_text fmt.noNul text countable small n positive inside,
      vsnprintf_text fmt.noNul text countable large m (by omega) inside', stored_prefix le full⟩
  · intro buf n invalid
    exact vsnprintf_invalid buf n fmt.object args invalid

theorem vsnprintf_bounded_number :
    let fmt : CString := ⟨literal "%5d", by decide, by decide⟩
    (∃ full rest, emitted fmt.bytes [.word 42] = .ok (full, rest) ∧
      (full.length < 2147483648 → Bounded fmt [.word 42] full)) ∧
    ∀ buf n, buf = none ∨ n < 1 →
      vsnprintf buf n fmt.object [.word 42] = .ok (-E_INVAL, buf) :=
  vsnprintf_bounded _ [.word 42] (by
    rw [Matches, show directives (literal "%5d") = [.escape [53] .decimal] by decide +kernel]
    exact ⟨trivial, trivial⟩)

/-- A buffer of four bytes, in which the end falls between the digits. -/
example : vsnprintf (some [9, 9, 9, 9, 9]) 4 (literal "%2d|%d" ++ [0]) [.word 7, .word 123] =
    .ok (6, some [32, 55, 124, 0, 9]) := by
  decide +kernel

end Jos
