import Jos.Kern.Commands

/-!
# The text of a backtrace
-/
namespace Jos

open Library

/-- The debugging tables of a linked kernel. -/
structure KernelSymbols extends Symbols where
  headed : Headed stabs
  fits : stabstr.length < 2147483648
  placed : ∀ name, place name ≠ 0
  nonnull : funcName ≠ 0

/-- What the tables say about an address. -/
def Symbols.infoAt (k : Symbols) (eip : BitVec 32) : Eipdebuginfo :=
  match debuginfoEip k.stabs k.stabstr (.ofBitVec eip) with
  | .ok (_, info) => info
  | .error _ => initialInfo (.ofBitVec eip)

def fileBytes (stabstr : List UInt8) (info : Eipdebuginfo) : List UInt8 :=
  (info.eipFile.object stabstr).takeWhile (· != 0)

/-- The line with the words of the frame at `ebp`. -/
def wordsText (mem : Mem) (ebp : BitVec 32) : List Int :=
  plainText (literal "  ebp ") ++ (hexText ebp ++
    (plainText (literal "  eip ") ++ (hexText (load32 mem (ebp + 4)) ++
    (plainText (literal "  args ") ++ (hexText (load32 mem (ebp + 8)) ++
    (plainText (literal " ") ++ (hexText (load32 mem (ebp + 0xc)) ++
    (plainText (literal " ") ++ (hexText (load32 mem (ebp + 0x10)) ++
    (plainText (literal " ") ++ (hexText (load32 mem (ebp + 0x14)) ++
    (plainText (literal " ") ++ (hexText (load32 mem (ebp + 0x18)) ++
    plainText (literal "\n"))))))))))))))

/-- The line with the place in the source to which the frame returns. -/
def placeText (stabstr : List UInt8) (info : Eipdebuginfo) (eip : BitVec 32) : List Int :=
  plainText (literal "         ") ++ ((fileBytes stabstr info).map charInt ++
    (plainText (literal ":") ++ (decimalText (.ofInt 32 info.eipLine) ++
    (plainText (literal ": ") ++ ((nameBytes stabstr info).map charInt ++
    (plainText (literal "+") ++ (decimalText (eip - info.eipFnAddr.toBitVec + 1) ++
    plainText (literal "\n"))))))))

def frameText (k : Symbols) (mem : Mem) (ebp : BitVec 32) : List Int :=
  wordsText mem ebp ++
    placeText k.stabstr (k.infoAt (load32 mem (ebp + 4))) (load32 mem (ebp + 4))

def backtraceText (k : Symbols) (mem : Mem) (frames : List (BitVec 32)) : List Int :=
  plainText (literal "Stack backtrace:\n") ++ frames.flatMap (frameText k mem)

/-! ### The lines of a frame -/

theorem frameLine_renders (mem : Mem) (ebp : BitVec 32) :
    Renders frameFormat (frameLine mem (.next ebp)).args (wordsText mem ebp) := by
  have whole : frameFormat = literal "  ebp " ++ (literal "%08x" ++ (literal "  eip " ++
      (literal "%08x" ++ (literal "  args " ++ (literal "%08x" ++ (literal " " ++
      (literal "%08x" ++ (literal " " ++ (literal "%08x" ++ (literal " " ++ (literal "%08x" ++
      (literal " " ++ (literal "%08x" ++ (literal "\n" ++ [])))))))))))))) := by
    decide +kernel
  have blank : '%'.toUInt8 ∉ literal " " := by decide
  have newline := Renders.last (s := literal "\n") (by decide)
  rw [whole]
  exact .text (by decide +kernel) (.hex _ (.text (by decide +kernel) (.hex _
    (.text (by decide +kernel) (.hex _ (.text blank (.hex _ (.text blank (.hex _
    (.text blank (.hex _ (.text blank (.hex _ newline)))))))))))))

/-- A string in an object that has a NUL. -/
theorem Renders.terminated {addr : BitVec 32} (nonnull : addr ≠ 0) {obj : List UInt8}
    (ended : 0 ∈ obj) (short : obj.length < 2147483648) {fmt : List UInt8} {ap : VaList}
    {out : List Int} (rest : Renders fmt ap out) :
    Renders (literal "%s" ++ fmt) (.ptr addr obj :: ap)
      ((obj.takeWhile (· != 0)).map charInt ++ out) := by
  obtain ⟨s, tail, rfl, noNul⟩ := List.eq_append_cons_of_mem ended
  rw [takeWhile_nul noNul tail]
  rw [List.length_append] at short
  exact .string nonnull noNul (by omega) tail rest

theorem nameLine_renders (k : KernelSymbols) {info : Eipdebuginfo}
    (inside : NamesInside k.stabstr info) (eip : BitVec 32) {funcName : List UInt8}
    (size : funcName.length = 64) (short : (nameBytes k.stabstr info).length < 64)
    (named : funcName.takeWhile (· != 0) = nameBytes k.stabstr info) :
    Renders nameFormat (nameLine k.toSymbols info eip funcName).args
      (placeText k.stabstr info eip) := by
  have whole : nameFormat = literal "         " ++ (literal "%s" ++ (literal ":" ++
      (literal "%d" ++ (literal ": " ++ (literal "%s" ++ (literal "+" ++ (literal "%d" ++
      (literal "\n" ++ [])))))))) := by
    decide +kernel
  have fileFits : (info.eipFile.object k.stabstr).length < 2147483648 := by
    have fits := k.fits
    cases info.eipFile with
    | unknown =>
      rw [show Name.unknown.object k.stabstr = "<unknown>".toUTF8.toList ++ [0] from rfl]
      decide +kernel
    | stabstr offset =>
      rw [Name.object, List.length_drop]
      omega
  -- the name does not fill the array
  have ended : 0 ∈ funcName := by
    by_contra full
    have all : funcName.takeWhile (· != 0) = funcName := by
      rw [List.takeWhile_eq_self_iff]
      intro b member
      rw [bne_iff_ne]
      rintro rfl
      exact full member
    rw [all] at named
    rw [← named, size] at short
    exact absurd short (by decide)
  have newline := Renders.last (s := literal "\n") (by decide)
  rw [whole, placeText, ← named]
  exact .text (by decide +kernel) (.terminated (k.placed _) inside.file fileFits
    (.text (by decide +kernel) (.decimal _ (.text (by decide +kernel)
    (.terminated k.nonnull ended (by omega) (.text (by decide +kernel)
    (.decimal _ newline)))))))

theorem printFrame_prints (k : KernelSymbols) {mem : Mem} {ebp : BitVec 32}
    (named : ∃ name, symbol k.toSymbols (load32 mem (ebp + 4)) = some name ∧ name.length < 64)
    (b : Backtrace) (vars : b.vars = .next ebp) (size : b.funcName.length = 64) :
    ∃ funcName lines, funcName.length = 64 ∧ Prints lines (frameText k.toSymbols mem ebp) ∧
      printFrame k.toSymbols mem b = .ok ⟨.next ebp, funcName, b.printed ++ lines⟩ := by
  obtain ⟨name, some, short⟩ := named
  obtain ⟨result, info, looked, rfl⟩ := symbol_eq_some_iff.mp some
  have known : k.infoAt (load32 mem (ebp + 4)) = info := by rw [Symbols.infoAt, looked]
  have looked' : debuginfoEip k.stabs k.stabstr (.ofBitVec (load32 mem b.vars.eip)) =
      .ok (result, info) := by rwa [vars]
  obtain ⟨funcName, length, string, printed⟩ := printFrame_fits size looked' short
  rw [vars] at printed
  have noNul : 0 ∉ frameFormat ∧ 0 ∉ nameFormat := by decide +kernel
  have line := nameLine_renders k (debuginfoEip_names looked) (load32 mem (ebp + 4)) length short
    string
  rw [frameText, known]
  exact ⟨funcName, _, length, .append (.single noNul.1 (frameLine_renders mem ebp))
    (.single noNul.2 line), printed⟩

theorem Prints.flatten {α : Type} {f : α → List Int} {xs : List α} {lines : List (List Printed)}
    (each : List.Forall₂ (fun x ps => Prints ps (f x)) xs lines) :
    Prints lines.flatten (xs.flatMap f) := by
  induction each with
  | nil => exact .nil
  | cons here _ ih => exact here.append ih

/-- On a chain of frames `mon_backtrace` prints the text of the frames. -/
theorem monBacktrace_prints (k : KernelSymbols) (mem : Mem) {temp : BitVec 32}
    {frames : List (BitVec 32)} (chain : Chain mem (temp + 0x1c) frames)
    (named : ∀ ebp ∈ frames,
      ∃ name, symbol k.toSymbols (load32 mem (ebp + 4)) = some name ∧ name.length < 64)
    (funcName : Fin 64 → UInt8) {fuel : Nat} (enough : frames.length ≤ fuel) :
    ∃ ps, monBacktrace k.toSymbols mem temp (List.ofFn funcName) fuel = .ok ps ∧
      Prints ps (backtraceText k.toSymbols mem frames) := by
  obtain ⟨b, lines, returned, out, printed⟩ := walkFrames_chain chain
    (fun ebp member b vars size => printFrame_prints k (named ebp member) b vars size)
    (b := .start temp (List.ofFn funcName)) (first_eq_next temp) List.length_ofFn enough
  refine ⟨b.printed, by rw [monBacktrace, returned, Exec.map_ok], ?_⟩
  rw [out, backtraceText]
  exact .append (.plain (by decide +kernel) (by decide +kernel)) (.flatten printed)

end Jos
