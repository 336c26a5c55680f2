import Jos.Lib.Readline

/-!
# readline as a line editor

Backspace is ignored on an empty line and DEL is not: it is above `' '`, and falls into the
branch that stores a character.
-/
namespace Jos

open Library

def BS : Int := ord '\x08'

def DEL : Int := ord '\x7f'

/-- What a character does to the line in a line editor with two erase keys. -/
def lineEdit (line : List UInt8) (c : Int) : List UInt8 :=
  if c = BS ∨ c = DEL then line.dropLast
  else if c ≥ ord ' ' ∧ line.length < BUFLEN - 1 then line ++ [UInt8.ofInt c]
  else line

/-- The number of characters that `readline` holds after one more. -/
def held (n : Nat) (c : Int) : Nat :=
  if (c = BS ∨ c = DEL) ∧ n ≠ 0 then n - 1
  else if c ≥ ord ' ' ∧ n < BUFLEN - 1 then n + 1
  else n

/-- Every DEL that arrives on an empty line is erased again. -/
def DelsErased (input : List Int) : Prop :=
  ∀ before after, input = before ++ DEL :: after → before.foldl held 0 = 0 →
    ∃ erased rest, after = erased ++ rest ∧ (before ++ DEL :: erased).foldl held 0 = 0

/-! ### The number of characters -/

theorem length_edit (chars : List UInt8) (c : Int) : (edit chars c).length = held chars.length c := by
  unfold edit held
  simp only [BS, DEL, ne_eq, List.length_eq_zero_iff]
  by_cases erase : (c = ord '\x08' ∨ c = ord '\x7f') ∧ ¬chars = []
  · rw [if_pos erase, if_pos erase, List.length_dropLast]
  · rw [if_neg erase, if_neg erase]
    split
    · exact List.length_append
    · rfl

theorem length_edited (input : List Int) (chars : List UInt8) :
    (input.foldl edit chars).length = input.foldl held chars.length := by
  induction input generalizing chars with
  | nil => rfl
  | cons c input ih => rw [List.foldl_cons, List.foldl_cons, ih, length_edit]

theorem edited_eq_nil_iff (input : List Int) :
    input.foldl edit [] = [] ↔ input.foldl held 0 = 0 := by
  rw [← List.length_eq_zero_iff, length_edited]
  rfl

theorem edit_nil (c : Int) : edit [] c = if c ≥ ord ' ' then [UInt8.ofInt c] else [] := by
  have room : ([] : List UInt8).length < BUFLEN - 1 := by decide
  simp only [edit, ne_eq, not_true_eq_false, and_false, if_false, room, and_true, List.nil_append]

theorem ofInt_eq_del_iff {c : Int} (byte : 1 ≤ c ∧ c ≤ 255) : UInt8.ofInt c = 0x7f ↔ c = DEL := by
  have value := toNat_ofInt c
  have code : DEL = 127 := rfl
  have stored : (0x7f : UInt8).toNat = 127 := rfl
  rw [← UInt8.toNat_inj, stored]
  omega

/-! ### The DEL that is stored -/

/-- A character at the front stays there until the line is empty. -/
theorem head?_edit {chars : List UInt8} {c : Int} (before : chars ≠ []) (after : edit chars c ≠ []) :
    (edit chars c).head? = chars.head? := by
  unfold edit at after ⊢
  split at after
  · next erase =>
    have longer : 1 < chars.length := by
      have := List.length_pos_iff.mpr after
      rw [List.length_dropLast] at this
      omega
    rw [if_pos erase, List.head?_dropLast, if_pos longer]
  · next keep =>
    rw [if_neg keep]
    split
    · rw [List.head?_append_of_ne_nil chars before]
    · rfl

/-- A line that begins with DEL has held it since it was last empty. -/
theorem not_delsErased_of_head? {input : List Int} (bytes : ∀ c ∈ input, 1 ≤ c ∧ c ≤ 255)
    (first : (input.foldl edit []).head? = some 0x7f) : ¬DelsErased input := by
  induction input using List.reverseRecOn with
  | nil => cases first
  | append_singleton input c ih =>
    intro erasedAgain
    rw [List.foldl_append, List.foldl_cons, List.foldl_nil] at first
    have nonempty : edit (input.foldl edit []) c ≠ [] := by
      intro none
      rw [none] at first
      cases first
    have whole : (input ++ [c]).foldl held 0 ≠ 0 := by
      rwa [ne_eq, ← edited_eq_nil_iff, List.foldl_append]
    by_cases empty : input.foldl edit [] = []
    · -- the character itself is the DEL
      rw [empty, edit_nil] at first
      split at first
      · rw [List.head?_cons, Option.some.injEq, ofInt_eq_del_iff (bytes c (by simp))] at first
        subst first
        obtain ⟨erased, rest, split, gone⟩ :=
          erasedAgain input [] rfl ((edited_eq_nil_iff input).mp empty)
        obtain ⟨rfl, -⟩ := List.append_eq_nil_iff.mp split.symm
        exact whole gone
      · cases first
    · rw [head?_edit empty nonempty] at first
      refine ih (fun d member => bytes d (by simp [member])) first ?_
      rintro before after rfl none
      obtain ⟨erased, rest, split, gone⟩ := erasedAgain before (after ++ [c]) (by simp) none
      obtain rfl | ⟨rest, d, rfl⟩ := List.eq_nil_or_concat' rest
      · rw [List.append_nil] at split
        rw [← split, ← List.cons_append, ← List.append_assoc] at gone
        exact absurd gone whole
      · rw [← List.append_assoc] at split
        exact ⟨erased, rest, List.append_inj_left' split rfl, gone⟩

/-- A DEL that is not erased again stays at the front of the line. -/
theorem head?_of_not_delsErased {input : List Int} (kept : ¬DelsErased input) :
    (input.foldl edit []).head? = some 0x7f := by
  simp only [DelsErased, not_forall, not_exists, not_and] at kept
  obtain ⟨before, after, rfl, none, never⟩ := kept
  have stays : ∀ erased rest, after = erased ++ rest →
      ((before ++ DEL :: erased).foldl edit []).head? = some 0x7f := by
    intro erased
    induction erased using List.reverseRecOn with
    | nil =>
      intro _ _
      rw [List.foldl_append, (edited_eq_nil_iff before).mpr none, List.foldl_cons, edit_nil]
      rfl
    | append_singleton erased c ih =>
      intro rest split
      have earlier := ih (c :: rest) (by rw [split, List.append_assoc, List.singleton_append])
      have nonempty := never (erased ++ [c]) rest split
      rw [← edited_eq_nil_iff] at nonempty
      rw [← List.cons_append, ← List.append_assoc, List.foldl_append] at nonempty ⊢
      rw [← earlier]
      refine head?_edit ?_ nonempty
      intro gone
      rw [gone] at earlier
      cases earlier
  exact stays after [] (List.append_nil after).symm

/-! ### The two editors side by side -/

/-- The line of `readline` and that of the editor: the same, or one with a DEL stored in front. A
full line may have lost a character to it. -/
structure Beside (chars line : List UInt8) : Prop where
  plain : 0x7f ∉ line
  state : chars = line ∨
    chars.head? = some 0x7f ∧ line.length ≤ chars.length ∧ chars.length ≤ line.length + 1

theorem lineEdit_plain {line : List UInt8} (plain : 0x7f ∉ line) {c : Int}
    (byte : 1 ≤ c ∧ c ≤ 255) : 0x7f ∉ lineEdit line c := by
  unfold lineEdit
  split
  · exact fun member => plain (List.dropLast_subset line member)
  · next other =>
    split
    · rw [List.mem_append, List.mem_singleton, not_or]
      refine ⟨plain, fun same => ?_⟩
      exact other (.inr ((ofInt_eq_del_iff byte).mp same.symm))
    · exact plain

theorem Beside.kept {chars line : List UInt8} (beside : Beside chars line) {c : Int}
    (byte : 1 ≤ c ∧ c ≤ 255) : Beside (edit chars c) (lineEdit line c) := by
  refine ⟨lineEdit_plain beside.plain byte, ?_⟩
  by_cases erase : c = BS ∨ c = DEL
  · have intended : lineEdit line c = line.dropLast := if_pos erase
    rw [intended]
    by_cases empty : chars = []
    · -- only a DEL is stored on the empty line
      subst empty
      obtain rfl : line = [] := by
        rcases beside.state with same | ⟨first, _⟩
        · exact same.symm
        · cases first
      rcases erase with rfl | rfl
      · exact .inl rfl
      · exact .inr ⟨rfl, by decide, by decide⟩
    · have actual : edit chars c = chars.dropLast := if_pos ⟨erase, empty⟩
      rw [actual]
      rcases beside.state with rfl | ⟨first, short, long⟩
      · exact .inl rfl
      · by_cases single : chars.length ≤ 1
        · left
          rw [List.eq_nil_of_length_eq_zero (by rw [List.length_dropLast]; omega : chars.dropLast.length = 0),
            List.eq_nil_of_length_eq_zero (by rw [List.length_dropLast]; omega : line.dropLast.length = 0)]
        · right
          rw [List.head?_dropLast, if_pos (by omega), List.length_dropLast, List.length_dropLast]
          exact ⟨first, by omega, by omega⟩
  · have actual : edit chars c =
        if c ≥ ord ' ' ∧ chars.length < BUFLEN - 1 then chars ++ [UInt8.ofInt c] else chars :=
      if_neg fun both => erase both.1
    have intended : lineEdit line c =
        if c ≥ ord ' ' ∧ line.length < BUFLEN - 1 then line ++ [UInt8.ofInt c] else line :=
      if_neg erase
    rw [actual, intended]
    rcases beside.state with rfl | ⟨first, short, long⟩
    · exact .inl rfl
    · right
      have nonempty : chars ≠ [] := by
        rintro rfl
        cases first
      split
      · next insert =>
        rw [if_pos ⟨insert.1, by omega⟩, List.head?_append_of_ne_nil chars nonempty]
        simp only [List.length_append, List.length_singleton]
        exact ⟨first, by omega, by omega⟩
      · split
        · next ignored insert =>
          -- the line of `readline` is full, the other one is not
          have full : ¬chars.length < BUFLEN - 1 := fun room => ignored ⟨insert.1, room⟩
          rw [List.length_append, List.length_singleton]
          exact ⟨first, by omega, by omega⟩
        · exact ⟨first, short, long⟩

theorem edited_beside {input : List Int} (bytes : ∀ c ∈ input, 1 ≤ c ∧ c ≤ 255) :
    Beside (input.foldl edit []) (input.foldl lineEdit []) := by
  induction input using List.reverseRecOn with
  | nil => exact ⟨List.not_mem_nil, .inl rfl⟩
  | append_singleton input c ih =>
    have earlier := ih fun d member => bytes d (by simp [member])
    rw [List.foldl_append, List.foldl_append]
    exact earlier.kept (bytes c (by simp))

theorem edited_eq_iff {input : List Int} (bytes : ∀ c ∈ input, 1 ≤ c ∧ c ≤ 255) :
    input.foldl edit [] = input.foldl lineEdit [] ↔ DelsErased input := by
  obtain ⟨plain, state⟩ := edited_beside bytes
  constructor
  · intro same
    by_contra kept
    have first := head?_of_not_delsErased kept
    rw [same] at first
    exact plain (List.mem_of_head? first)
  · intro erased
    rcases state with same | ⟨first, _⟩
    · exact same
    · exact absurd erased (not_delsErased_of_head? bytes first)

/-! ### The string that is returned -/

/-- The string in a buffer. -/
def stringIn (buf : List UInt8) : List UInt8 := buf.takeWhile (· != 0)

theorem Follows.stringIn {ed : Editor} {chars : List UInt8} (follows : Follows ed chars) :
    Jos.stringIn (ed.buf.set ed.i.toNat 0) = chars := by
  obtain ⟨index, size, short, stored, noNul, -⟩ := follows
  have place : ed.i.toNat = chars.length := by omega
  rw [Jos.stringIn, place, List.set_eq_take_append_cons_drop, if_pos (by omega), stored]
  exact takeWhile_nul noNul _

/-- `readline` returns what a line editor makes of the characters exactly if every DEL that
arrives on an empty line is erased again. -/
theorem readline_edits_iff (prompt : Option CString) {buf : List UInt8} (size : buf.length = BUFLEN)
    {con : Console} (inside : con.crtPos.toNat < CRT_SIZE) {input : List Int}
    (midLine : MidLine input) {c : Int} (ends : c = ord '\n' ∨ c = ord '\r') :
    ∃ ed, readline prompt buf (input ++ [c]) con = .ok (.line ed) ∧
      (stringIn ed.buf = input.foldl lineEdit [] ↔ DelsErased input) := by
  obtain ⟨ed₀, empty, started⟩ := readline_started prompt size inside
  obtain ⟨ed, follows, run⟩ := readAll_follows empty midLine
  obtain ⟨con', returned⟩ := read_return follows ends
  refine ⟨{ ed with buf := ed.buf.set ed.i.toNat 0, con := con' }, ?_, ?_⟩
  · rw [started, run, Editor.readAll, returned]
    rfl
  · rw [follows.stringIn, edited_eq_iff fun d member => (midLine d member).1]

theorem readline_edits_iff_erased :
    ∃ ed, readline none (List.replicate 1024 0) ([0x7f, 8, 0x61] ++ [ord '\n'])
        ⟨fun _ => 0, .cga, 0, []⟩ = .ok (.line ed) ∧
      (stringIn ed.buf = [0x7f, 8, 0x61].foldl lineEdit [] ↔ DelsErased [0x7f, 8, 0x61]) :=
  @readline_edits_iff none (List.replicate 1024 0) List.length_replicate ⟨fun _ => 0, .cga, 0, []⟩
    (by decide) [0x7f, 8, 0x61] (by decide) (ord '\n') (.inl rfl)

/-- DEL alone is a line of one character. -/
theorem readline_edits_del :
    ∃ ed, readline none (List.replicate 1024 0) ([0x7f] ++ [ord '\n']) ⟨fun _ => 0, .cga, 0, []⟩ =
        .ok (.line ed) ∧
      stringIn ed.buf = [0x7f] ∧ [0x7f].foldl lineEdit [] = [] := by
  obtain ⟨ed₀, empty, started⟩ := @readline_started none (List.replicate 1024 0)
    List.length_replicate ⟨fun _ => 0, .cga, 0, []⟩ (by decide)
  obtain ⟨ed, follows, run⟩ := readAll_follows empty (show MidLine [0x7f] by decide)
  obtain ⟨con', returned⟩ := read_return follows (.inl (rfl : ord '\n' = ord '\n'))
  refine ⟨{ ed with buf := ed.buf.set ed.i.toNat 0, con := con' }, ?_, follows.stringIn, rfl⟩
  rw [started, run, Editor.readAll, returned]
  rfl

end Jos
