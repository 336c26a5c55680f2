import Jos.Kern.Backtrace
import Jos.Kern.KdebugSafety
import Mathlib.Data.List.TakeWhile

/-!
# The name buffer of a backtrace

`mon_backtrace` copies a symbol of any length to an array of 64 bytes.
-/
namespace Jos

open Library

/-- The bytes of a function's name, up to its colon. -/
def nameBytes (stabstr : List UInt8) (info : Eipdebuginfo) : List UInt8 :=
  (info.eipFnName.object stabstr).takeWhile fun b => b ≠ 0 ∧ b ≠ ':'.toUInt8

/-- The symbol that the tables have for an address. -/
def symbol (k : Symbols) (eip : BitVec 32) : Option (List UInt8) :=
  match debuginfoEip k.stabs k.stabstr (.ofBitVec eip) with
  | .ok (_, info) => some (nameBytes k.stabstr info)
  | .error _ => none

/-- The frames to which the saved frame pointers lead, as long as `debuginfo_eip` returns. -/
inductive Walks (k : Symbols) (mem : Mem) : BitVec 32 → BitVec 32 → Prop
  | here (ebp : BitVec 32) : Walks k mem ebp ebp
  | on {ebp ebp' : BitVec 32} : symbol k (load32 mem (ebp + 4)) ≠ none → load32 mem ebp ≠ 0 →
      Walks k mem (load32 mem ebp) ebp' → Walks k mem ebp ebp'

/-- The loop comes from one turn to another. -/
inductive Comes (k : Symbols) (mem : Mem) : Backtrace → Backtrace → Prop
  | here (b : Backtrace) : Comes k mem b b
  | on {b b₁ b' : Backtrace} : printFrame k mem b = .ok b₁ → load32 mem b₁.vars.ebp ≠ 0 →
      Comes k mem { b₁ with vars := .next (load32 mem b₁.vars.ebp) } b' → Comes k mem b b'

/-- Once `debuginfo_eip` has returned, the turn stores inside `func_name`, and the string that it
prints is the name. -/
def NameKept (k : Symbols) (mem : Mem) (b : Backtrace) : Prop :=
  ∀ result info, debuginfoEip k.stabs k.stabstr (.ofBitVec (load32 mem b.vars.eip)) =
      .ok (result, info) →
    ∃ b', printFrame k mem b = .ok b' ∧
      b'.printed.getLast? = some (nameLine k info (load32 mem b.vars.eip) b'.funcName) ∧
      b'.funcName.takeWhile (· != 0) =
        (info.eipFnName.object k.stabstr).take info.eipFnNamelen.toNat

/-! ### The names -/

/-- Whatever the tables hold: when `debuginfo_eip` returns, its names are terminated. -/
theorem debuginfoEip_names {stabs : List Stab} {stabstr : List UInt8} {addr : UInt32}
    {result : Int} {info : Eipdebuginfo}
    (returned : debuginfoEip stabs stabstr addr = .ok (result, info)) :
    NamesInside stabstr info := by
  have unknown := unknown_terminated stabstr
  have nothing : NamesInside stabstr (initialInfo addr) :=
    ⟨unknown, unknown, congrArg Nat.cast (unknown_namelen stabstr).symm⟩
  by_cases kernel : ULIM ≤ addr
  · by_cases terminated : stabstr.getLast? = some 0
    · rcases lineRange_cases stabs addr with ⟨rfile, none⟩ | ⟨-, rfile, before⟩ |
        ⟨f, fEnd, g, gEnd, fn, range⟩
      · rw [debuginfoEip_noFile kernel terminated none] at returned
        cases returned
        exact nothing
      · rw [fileSearch_faults kernel terminated before] at returned
        cases returned
      · obtain ⟨left, right, lines, -⟩ := range.lineSearch
        rcases Int.lt_or_le left 0 with negative | nonneg
        · rw [range.faults kernel terminated lines negative] at returned
          cases returned
        · obtain ⟨k, kEnd, line, -, -, searches⟩ := range.searches lines nonneg
          rw [searches.returned kernel terminated] at returned
          cases returned
          exact report_namesInside stabs addr terminated f g gEnd k kEnd fn line
    · rw [debuginfoEip_refused stabs kernel terminated] at returned
      cases returned
      exact nothing
  · rw [debuginfoEip, if_neg kernel] at returned
    cases returned

theorem nameBytes_noNul (stabstr : List UInt8) (info : Eipdebuginfo) :
    0 ∉ nameBytes stabstr info := by
  intro member
  have nonzero := List.mem_takeWhile_imp member
  simp at nonzero

theorem NamesInside.take {stabstr : List UInt8} {info : Eipdebuginfo}
    (inside : NamesInside stabstr info) :
    (info.eipFnName.object stabstr).take info.eipFnNamelen.toNat = nameBytes stabstr info := by
  rw [inside.namelen, Int.toNat_natCast]
  exact (List.prefix_iff_eq_take.mp (List.takeWhile_prefix _)).symm

/-- The name in front of what ends it. -/
theorem nameBytes_object (stabstr : List UInt8) (info : Eipdebuginfo) :
    ∃ rest, info.eipFnName.object stabstr = nameBytes stabstr info ++ rest :=
  ⟨_, (List.takeWhile_append_dropWhile ..).symm⟩

theorem symbol_eq_some_iff {k : Symbols} {eip : BitVec 32} {name : List UInt8} :
    symbol k eip = some name ↔ ∃ result info,
      debuginfoEip k.stabs k.stabstr (.ofBitVec eip) = .ok (result, info) ∧
        nameBytes k.stabstr info = name := by
  unfold symbol
  cases debuginfoEip k.stabs k.stabstr (.ofBitVec eip) with
  | error e => simp
  | ok found =>
    obtain ⟨result, info⟩ := found
    simp

/-! ### The stores -/

theorem strncpyFrom_fits {name : List UInt8} (noNul : 0 ∉ name) (rest done tail : List UInt8)
    {old : List UInt8} (size : old.length = name.length) :
    strncpyFrom name.length (done ++ (old ++ tail)) done.length (name ++ rest) =
      .ok (done ++ (name ++ tail)) := by
  induction name generalizing done old with
  | nil =>
    obtain rfl := List.length_eq_zero_iff.mp size
    rfl
  | cons b name ih =>
    obtain ⟨c, old, rfl⟩ := List.exists_cons_of_length_eq_add_one size
    obtain ⟨nonzero, later⟩ : 0 ≠ b ∧ 0 ∉ name := by simpa using noNul
    have inside : (0 : Int) ≤ (done.length : Int) ∧
        (done.length : Int) < ((done ++ (c :: old ++ tail)).length : Int) := by
      rw [List.length_append, List.cons_append, List.length_cons]
      omega
    have onwards := ih later (done ++ [b]) (Nat.succ.inj size)
    rw [List.append_assoc, List.append_assoc, List.length_append] at onwards
    rw [List.length_cons, strncpyFrom, List.cons_append (a := b), readAt_head, Exec.ok_bind,
      writeAt, if_pos inside, Exec.ok_bind, if_pos (Ne.symm nonzero)]
    refine Eq.trans ?_ onwards
    congr 1
    simp

theorem strncpyFrom_overruns {name : List UInt8} (noNul : 0 ∉ name) (rest : List UInt8)
    {dst : List UInt8} {i : Nat} (long : dst.length < i + name.length) (inside : i ≤ dst.length) :
    strncpyFrom name.length dst i (name ++ rest) = .error .outOfBounds := by
  induction name generalizing dst i with
  | nil => exact absurd long (Nat.not_lt.mpr inside)
  | cons b name ih =>
    obtain ⟨nonzero, later⟩ : 0 ≠ b ∧ 0 ∉ name := by simpa using noNul
    rw [List.length_cons, strncpyFrom, List.cons_append, readAt_head, Exec.ok_bind, writeAt]
    by_cases full : i = dst.length
    · rw [if_neg (by omega)]
      rfl
    · rw [if_pos (by omega), Exec.ok_bind, if_pos (Ne.symm nonzero)]
      exact ih later (by rw [List.length_set, Nat.add_assoc, Nat.add_comm 1]; exact long)
        (by rw [List.length_set]; omega)

section Store

variable {stabstr : List UInt8} {info : Eipdebuginfo} (inside : NamesInside stabstr info)
  {funcName : List UInt8} (size : funcName.length = 64)
include inside size

theorem storeName_fits (short : (nameBytes stabstr info).length < 64) :
    ∃ tail, storeName stabstr info funcName = .ok (nameBytes stabstr info ++ 0 :: tail) ∧
      (nameBytes stabstr info ++ 0 :: tail).length = 64 := by
  obtain ⟨rest, object⟩ := nameBytes_object stabstr info
  have split := List.take_append_drop (nameBytes stabstr info).length funcName
  have left : (funcName.drop (nameBytes stabstr info).length).length =
      64 - (nameBytes stabstr info).length := by rw [List.length_drop, size]
  obtain ⟨b, tail, last⟩ := List.exists_cons_of_length_pos (by omega :
    0 < (funcName.drop (nameBytes stabstr info).length).length)
  have copied := strncpyFrom_fits (nameBytes_noNul stabstr info) rest [] (b :: tail)
    (by rw [List.length_take, size]; omega :
      (funcName.take (nameBytes stabstr info).length).length = (nameBytes stabstr info).length)
  rw [List.nil_append, List.nil_append, ← last, split, List.length_nil] at copied
  have written : writeAt (nameBytes stabstr info ++ b :: tail) (nameBytes stabstr info).length 0 =
      .ok (nameBytes stabstr info ++ 0 :: tail) := by
    rw [writeAt, if_pos (by rw [List.length_append, List.length_cons]; omega)]
    simp
  refine ⟨tail, ?_, ?_⟩
  · rw [storeName, inside.namelen, Int.toNat_natCast, ← nameBytes, object, strncpy, copied,
      Exec.ok_bind, last, written]
  · rw [last, List.length_cons] at left
    rw [List.length_append, List.length_cons]
    omega

theorem storeName_overruns (long : 64 ≤ (nameBytes stabstr info).length) :
    storeName stabstr info funcName = .error .outOfBounds := by
  obtain ⟨rest, object⟩ := nameBytes_object stabstr info
  rw [storeName, inside.namelen, Int.toNat_natCast, ← nameBytes, object, strncpy]
  rcases Nat.lt_or_eq_of_le long with longer | exact_
  · rw [strncpyFrom_overruns (nameBytes_noNul stabstr info) rest (by omega) (Nat.zero_le _)]
    rfl
  · -- the name fills the array, and the NUL comes behind it
    have copied := strncpyFrom_fits (nameBytes_noNul stabstr info) rest [] []
      (size.trans exact_ : funcName.length = _)
    simp only [List.nil_append, List.append_nil, List.length_nil] at copied
    rw [copied, Exec.ok_bind, writeAt, if_neg (by omega)]

end Store

/-! ### The turns -/

section Turn

variable {k : Symbols} {mem : Mem} {b : Backtrace} (size : b.funcName.length = 64)
include size

theorem printFrame_fits {result : Int} {info : Eipdebuginfo}
    (returned : debuginfoEip k.stabs k.stabstr (.ofBitVec (load32 mem b.vars.eip)) =
      .ok (result, info)) (short : (nameBytes k.stabstr info).length < 64) :
    ∃ funcName, funcName.length = 64 ∧
      funcName.takeWhile (· != 0) = nameBytes k.stabstr info ∧
      printFrame k mem b = .ok { b with
        funcName
        printed := b.printed ++
          [frameLine mem b.vars, nameLine k info (load32 mem b.vars.eip) funcName] } := by
  obtain ⟨tail, stored, length⟩ := storeName_fits (debuginfoEip_names returned) size short
  refine ⟨_, length, takeWhile_nul (nameBytes_noNul k.stabstr info) tail, ?_⟩
  rw [printFrame, returned, Exec.ok_bind]
  dsimp only
  rw [stored]
  rfl

theorem printFrame_overruns {result : Int} {info : Eipdebuginfo}
    (returned : debuginfoEip k.stabs k.stabstr (.ofBitVec (load32 mem b.vars.eip)) =
      .ok (result, info)) (long : 64 ≤ (nameBytes k.stabstr info).length) :
    printFrame k mem b = .error .outOfBounds := by
  have overrun := storeName_overruns (debuginfoEip_names returned) size long
  rw [printFrame, returned, Exec.ok_bind]
  dsimp only
  rw [overrun]
  rfl

/-- One turn keeps the name if it is short. -/
theorem nameKept_turn : NameKept k mem b ↔
    ∀ name ∈ symbol k (load32 mem b.vars.eip), name.length < 64 := by
  constructor
  · intro kept name some
    obtain ⟨result, info, looked, rfl⟩ := symbol_eq_some_iff.mp some
    obtain ⟨b', printed, -⟩ := kept result info looked
    by_contra long
    rw [printFrame_overruns size looked (Nat.not_lt.mp long)] at printed
    cases printed
  · intro short result info looked
    obtain ⟨funcName, -, string, printed⟩ := printFrame_fits size looked
      (short _ (symbol_eq_some_iff.mpr ⟨result, info, looked, rfl⟩))
    refine ⟨_, printed, ?_, string.trans (debuginfoEip_names looked).take.symm⟩
    rw [List.getLast?_append]
    rfl

end Turn

/-- What a turn that returns has done. -/
theorem printFrame_eq_ok {k : Symbols} {mem : Mem} {b b' : Backtrace}
    (size : b.funcName.length = 64) (printed : printFrame k mem b = .ok b') :
    symbol k (load32 mem b.vars.eip) ≠ none ∧ b'.vars = b.vars ∧ b'.funcName.length = 64 := by
  obtain ⟨⟨result, info⟩, looked, -⟩ := Exec.bind_eq_ok.mp printed
  have some := symbol_eq_some_iff.mpr ⟨result, info, looked, rfl⟩
  refine ⟨fun none => Option.some_ne_none _ (some.symm.trans none), ?_⟩
  rcases Nat.lt_or_ge (nameBytes k.stabstr info).length 64 with short | long
  · obtain ⟨funcName, length, -, returned⟩ := printFrame_fits size looked short
    rw [returned] at printed
    cases printed
    exact ⟨rfl, length⟩
  · rw [printFrame_overruns size looked long] at printed
    cases printed

/-- The turns are those of the loop of `mon_backtrace`. -/
theorem walkFrames_eq_ok_iff {k : Symbols} {mem : Mem} {b b' : Backtrace} :
    (∃ fuel, walkFrames k mem fuel b = .ok b') ↔
      ∃ last, Comes k mem b last ∧ printFrame k mem last = .ok b' ∧ load32 mem b'.vars.ebp = 0 := by
  constructor
  · rintro ⟨fuel, returned⟩
    induction fuel generalizing b with
    | zero => cases returned
    | succ fuel ih =>
      obtain ⟨b₁, printed, rest⟩ := Exec.bind_eq_ok.mp returned
      by_cases ended : load32 mem b₁.vars.ebp = 0
      · rw [if_pos ended] at rest
        cases rest
        exact ⟨b, .here b, printed, ended⟩
      · rw [if_neg ended] at rest
        obtain ⟨last, comes, stopped⟩ := ih rest
        exact ⟨last, .on printed ended comes, stopped⟩
  · rintro ⟨last, comes, printed, ended⟩
    induction comes with
    | here b => exact ⟨1, by rw [walkFrames, printed, Exec.ok_bind, if_pos ended]; rfl⟩
    | @on b b₁ last printed₁ linked _ ih =>
      obtain ⟨fuel, returned⟩ := ih printed
      exact ⟨fuel + 1, by rw [walkFrames, printed₁, Exec.ok_bind, if_neg linked]; exact returned⟩

/-- The loop keeps every name if the symbols of all the frames are short. -/
theorem nameKept_walk (k : Symbols) (mem : Mem) {b : Backtrace} (size : b.funcName.length = 64)
    (eip : b.vars.eip = b.vars.ebp + 4) :
    (∀ b', Comes k mem b b' → NameKept k mem b') ↔
      ∀ ebp, Walks k mem b.vars.ebp ebp →
        ∀ name ∈ symbol k (load32 mem (ebp + 4)), name.length < 64 := by
  constructor
  · intro kept ebp walks
    generalize first : b.vars.ebp = ebp₀ at walks
    induction walks generalizing b with
    | here ebp =>
      rw [← first, ← eip]
      exact (nameKept_turn size).mp (kept b (.here b))
    | @on ebp₀ ebp known linked _ ih =>
      subst first
      -- the symbol of this frame is short, so that the loop comes to the next one
      rw [← eip] at known
      obtain ⟨name, some⟩ := Option.ne_none_iff_exists'.mp known
      obtain ⟨result, info, looked, -⟩ := symbol_eq_some_iff.mp some
      obtain ⟨b₁, printed, -⟩ := kept b (.here b) result info looked
      obtain ⟨-, vars, size₁⟩ := printFrame_eq_ok size printed
      rw [← vars] at linked ih
      exact ih (b := { b₁ with vars := .next (load32 mem b₁.vars.ebp) }) size₁ rfl
        (fun b' comes => kept b' (.on printed linked comes)) rfl
  · intro short b' comes
    induction comes with
    | here b =>
      rw [nameKept_turn size, eip]
      exact short _ (.here _)
    | @on b b₁ b' printed linked _ ih =>
      obtain ⟨known, vars, size₁⟩ := printFrame_eq_ok size printed
      rw [vars] at linked ih
      rw [eip] at known
      exact ih size₁ rfl fun ebp walks => short ebp (.on known linked walks)

theorem namesKept_iff (k : Symbols) (mem : Mem) (temp : BitVec 32) (funcName : Fin 64 → UInt8) :
    (∀ b, Comes k mem (.start temp (List.ofFn funcName)) b → NameKept k mem b) ↔
      ∀ ebp, Walks k mem (temp + 0x1c) ebp →
        ∀ name ∈ symbol k (load32 mem (ebp + 4)), name.length < 64 := by
  have eip : temp + 0x20 = temp + 0x1c + 4 := by
    rw [BitVec.add_assoc]
    rfl
  exact nameKept_walk k mem (b := .start temp (List.ofFn funcName)) List.length_ofFn eip

/-- The memory that holds these words from `base` on. -/
def wordsFrom (base : BitVec 32) (ws : List (BitVec 32)) : Mem := fun a =>
  (ws.getD ((a - base).toNat / 4) 0).extractLsb' (8 * ((a - base).toNat % 4)) 8

/-- A function with a name of 64 letters. -/
def longSymbols : Symbols where
  stabs := smallTable
  stabstr := [0] ++ literal "init.c" ++ [0] ++ List.replicate 64 'f'.toUInt8 ++ literal ":F1" ++ [0]
  place _ := 0xf0101000
  funcName := 0xf010efa0

/-- Its call of `mon_backtrace`, above the frame of `i386_init`. -/
def longStack : Mem :=
  wordsFrom 0xf010effc [0xf010f01c, 0xf0100017, 0, 0, 0, 0, 0, 0, 0, 0xf010003e]

theorem namesKept_long : ¬∀ b, Comes longSymbols longStack
    (.start 0xf010efe0 (List.ofFn fun _ : Fin 64 => 0)) b → NameKept longSymbols longStack b := by
  intro kept
  have short := (nameKept_turn List.length_ofFn).mp (kept _ (.here _))
    (List.replicate 64 'f'.toUInt8) (by decide +kernel)
  rw [List.length_replicate] at short
  exact absurd short (Nat.lt_irrefl 64)

end Jos
