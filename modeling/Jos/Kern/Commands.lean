import Jos.Inc.Types
import Jos.Kern.BacktraceFrames
import Jos.Kern.Printf
import Jos.Lib.FormatRules
import Jos.Lib.NumberText

/-!
# kern/monitor.c: the commands

What each command prints, and the text of it.
-/
namespace Jos

open Library

/-! ### mon_help and mon_kerninfo -/

/-- The `desc` of a command in the table. -/
def Func.desc : Func → List UInt8
  | .monHelp => literal "Display this list of commands"
  | .monKerninfo => literal "Display information about the kernel"
  | .monBacktrace => literal "Display information about the stack"

/-- Where the string constants are. -/
structure Rodata where
  place : List UInt8 → BitVec 32
  nonnull : ∀ s, place s ≠ 0

def Rodata.arg (r : Rodata) (s : List UInt8) : Arg := .ptr (r.place s) (s ++ [0])

def monHelp (r : Rodata) : List Printed :=
  commands.map fun command =>
    ⟨literal "%s - %s\n", [r.arg command.name, r.arg command.func.desc]⟩

/-- The symbols that the linker defines. The kernel is smaller than half of the address space. -/
structure Linked where
  start : BitVec 32
  entry : BitVec 32
  etext : BitVec 32
  edata : BitVec 32
  finish : BitVec 32
  ordered : entry.toNat ≤ finish.toNat
  small : finish.toNat - entry.toNat ≤ 2 ^ 31 - 1024

def monKerninfo (k : Linked) : List Printed :=
  [⟨literal "Special kernel symbols:\n", []⟩,
    ⟨literal "  _start                  %08x (phys)\n", [.word k.start]⟩,
    ⟨literal "  entry  %08x (virt)  %08x (phys)\n", [.word k.entry, .word (k.entry - KERNBASE)]⟩,
    ⟨literal "  etext  %08x (virt)  %08x (phys)\n", [.word k.etext, .word (k.etext - KERNBASE)]⟩,
    ⟨literal "  edata  %08x (virt)  %08x (phys)\n", [.word k.edata, .word (k.edata - KERNBASE)]⟩,
    ⟨literal "  end    %08x (virt)  %08x (phys)\n", [.word k.finish, .word (k.finish - KERNBASE)]⟩,
    ⟨literal "Kernel executable memory footprint: %dKB\n",
      [.word ((ROUNDUP (k.finish - k.entry) 1024).sdiv 1024)]⟩]

/-! ### What is printed and its text -/

/-- The calls of `cprintf` in order. -/
def printAll : List Printed → Console → Exec Console
  | [], con => pure con
  | p :: ps, con => do
    let (_, con) ← cprintf (p.fmt ++ [0]) p.args con
    printAll ps con

/-- The calls print this text. -/
inductive Prints : List Printed → List Int → Prop
  | nil : Prints [] []
  | cons {fmt : List UInt8} {ap rest : VaList} {ps : List Printed} {out more : List Int} : 0 ∉ fmt →
      formatText (directives fmt) ap = .ok (out, rest) → Prints ps more →
      Prints (⟨fmt, ap⟩ :: ps) (out ++ more)

theorem Prints.single {fmt : List UInt8} {ap : VaList} {out : List Int} (noNul : 0 ∉ fmt)
    (renders : Renders fmt ap out) : Prints [⟨fmt, ap⟩] out := by
  have one := Prints.nil.cons noNul renders
  rwa [List.append_nil] at one

theorem Prints.plain {s : List UInt8} (noNul : 0 ∉ s) (noPercent : '%'.toUInt8 ∉ s) :
    Prints [⟨s, []⟩] (plainText s) := .single noNul (.plain noPercent)

theorem Prints.append {ps qs : List Printed} {out more : List Int} (first : Prints ps out)
    (second : Prints qs more) : Prints (ps ++ qs) (out ++ more) := by
  induction first with
  | nil => exact second
  | cons noNul renders _ ih =>
    rw [List.cons_append, List.append_assoc]
    exact .cons noNul renders ih

theorem typedText_append (out more : List Int) :
    typedText (out ++ more) = typedText out ++ typedText more := List.flatMap_append

theorem printAll_shows {ps : List Printed} {out : List Int} (prints : Prints ps out)
    {con : Console} {s : CrtScreen} (shows : Shows con s) :
    ∃ con', printAll ps con = .ok con' ∧
      Shows con' ((typedText out).foldl (Screen.act blankCell) s) ∧ Kept con con' := by
  induction prints generalizing con s with
  | nil => exact ⟨con, rfl, shows, Kept.refl con⟩
  | @cons fmt ap rest ps out more noNul renders _ ih =>
    obtain ⟨con₁, printed, shows₁, kept₁⟩ := cprintf_shows noNul renders shows
    obtain ⟨con', rest, shows', kept'⟩ := ih shows₁
    refine ⟨con', ?_, ?_, kept₁.trans kept'⟩
    · rw [printAll, printed]
      exact rest
    · rwa [typedText_append, List.foldl_append]

/-! ### The texts -/

/-- A constant, followed by its NUL, as a string argument. -/
theorem Renders.constant (r : Rodata) {s fmt : List UInt8} {ap : VaList} {out : List Int}
    (ascii : ∀ b ∈ s, 0 < b ∧ b < 0x80) (short : s.length < 2147483648)
    (rest : Renders fmt ap out) :
    Renders (literal "%s" ++ fmt) (r.arg s :: ap) (plainText s ++ out) := by
  have noNul : 0 ∉ s := fun member => absurd (ascii 0 member).1 (by decide)
  have same : s.map charInt = plainText s := charInt_ascii.mpr fun b member => (ascii b member).2
  rw [← same]
  exact .string (r.nonnull s) noNul short [] rest

/-- The list of commands. -/
def helpText : List Int :=
  commands.flatMap fun command =>
    plainText (command.name ++ literal " - " ++ command.func.desc ++ literal "\n")

theorem monHelp_prints (r : Rodata) : Prints (monHelp r) helpText := by
  have ascii : ∀ command ∈ commands, (∀ b ∈ command.name, 0 < b ∧ b < 0x80) ∧
      (∀ b ∈ command.func.desc, 0 < b ∧ b < 0x80) ∧ command.name.length < 2147483648 ∧
      command.func.desc.length < 2147483648 := by decide +kernel
  rw [monHelp, helpText]
  generalize commands = cs at ascii ⊢
  induction cs with
  | nil => exact .nil
  | cons command cs ih =>
    obtain ⟨name, desc, shortName, shortDesc⟩ := ascii command (by simp)
    have whole : literal "%s - %s\n" =
        literal "%s" ++ (literal " - " ++ (literal "%s" ++ (literal "\n" ++ []))) := by
      decide +kernel
    have line : Renders (literal "%s - %s\n") [r.arg command.name, r.arg command.func.desc]
        (plainText (command.name ++ literal " - " ++ command.func.desc ++ literal "\n")) := by
      rw [whole]
      simp only [plainText, List.map_append, List.append_assoc]
      refine .constant r name shortName (.text (by decide +kernel) (.constant r desc shortDesc ?_))
      exact .last (by decide +kernel)
    exact .cons (by decide +kernel) line (ih fun other member => ascii other (by simp [member]))

/-- The addresses of a symbol, which the kernel links at its virtual one. -/
def symbolText (name : List UInt8) (v : BitVec 32) : List Int :=
  plainText name ++ (hexText v ++ (plainText (literal " (virt)  ") ++
    (hexText (v - KERNBASE) ++ plainText (literal " (phys)\n"))))

/-- The size of the kernel in kilobytes, rounded up. -/
def Linked.kilobytes (k : Linked) : Nat := (k.finish.toNat - k.entry.toNat + 1023) / 1024

def kerninfoText (k : Linked) : List Int :=
  plainText (literal "Special kernel symbols:\n") ++
    (plainText (literal "  _start                  ") ++
      (hexText k.start ++ plainText (literal " (phys)\n"))) ++
    symbolText (literal "  entry  ") k.entry ++ symbolText (literal "  etext  ") k.etext ++
    symbolText (literal "  edata  ") k.edata ++ symbolText (literal "  end    ") k.finish ++
    (plainText (literal "Kernel executable memory footprint: ") ++
      (digitsText .decimal k.kilobytes ++ plainText (literal "KB\n")))

/-- A number that is not negative as an `int`. -/
theorem decimalText_of_lt {v : BitVec 32} (small : v.toNat < 2 ^ 31) :
    decimalText v = digitsText .decimal v.toNat := by
  have value : (v.signExtend 64).toInt = v.toNat := by
    rw [BitVec.toInt_signExtend_of_le (by decide), BitVec.toInt_eq_toNat_of_lt (by omega)]
  have fits : v.toNat < 2 ^ 64 := by omega
  have count := digitCount_le .decimal fits
  rw [decimalText, signedText_eq, value, signText, if_neg (by omega), Int.natAbs_natCast,
    numberText_unpadded .decimal fits (by decide) ?_]
  · rfl
  · dsimp only
    omega

theorem footprint_toNat (k : Linked) :
    ((ROUNDUP (k.finish - k.entry) 1024).sdiv 1024).toNat = k.kilobytes := by
  have ordered := k.ordered
  have small := k.small
  have size : (k.finish - k.entry).toNat = k.finish.toNat - k.entry.toNat := by bv_omega
  have unit : (1024 : BitVec 32).toNat = 1024 := rfl
  have rounded : (ROUNDUP (k.finish - k.entry) 1024).toNat = 1024 * k.kilobytes := by
    rw [roundUp_toNat _ _ (by decide), if_pos (by omega), size, unit, Linked.kilobytes]
    rfl
  -- neither operand of the division is negative
  have positive : (ROUNDUP (k.finish - k.entry) 1024).msb = false := by
    have bound : k.kilobytes < 2 ^ 21 := by
      rw [Linked.kilobytes]
      omega
    rw [BitVec.msb_eq_false_iff_two_mul_lt, rounded]
    omega
  rw [BitVec.sdiv_eq, positive, show (1024 : BitVec 32).msb = false from rfl]
  dsimp only
  rw [BitVec.udiv_eq, BitVec.toNat_udiv, rounded, unit, Nat.mul_div_cancel_left _ (by decide)]

theorem symbol_renders {name : List UInt8} (plain : '%'.toUInt8 ∉ name) (v : BitVec 32) :
    Renders (name ++ literal "%08x (virt)  %08x (phys)\n") [.word v, .word (v - KERNBASE)]
      (symbolText name v) := by
  have whole : literal "%08x (virt)  %08x (phys)\n" =
      literal "%08x" ++
        (literal " (virt)  " ++ (literal "%08x" ++ (literal " (phys)\n" ++ []))) := by
    decide +kernel
  have last := Renders.last (s := literal " (phys)\n") (by decide +kernel)
  rw [whole, symbolText]
  exact .text plain (.hex v (.text (by decide +kernel) (.hex _ last)))

theorem symbol_prints (name fmt : List UInt8) (plain : '%'.toUInt8 ∉ name) (noNul : 0 ∉ fmt)
    (whole : fmt = name ++ literal "%08x (virt)  %08x (phys)\n") (v : BitVec 32) :
    Prints [⟨fmt, [.word v, .word (v - KERNBASE)]⟩] (symbolText name v) := by
  subst whole
  exact .single noNul (symbol_renders plain v)

theorem monKerninfo_prints (k : Linked) : Prints (monKerninfo k) (kerninfoText k) := by
  have header : Prints [⟨literal "Special kernel symbols:\n", []⟩]
      (plainText (literal "Special kernel symbols:\n")) :=
    .plain (by decide +kernel) (by decide +kernel)
  have start : Prints [⟨literal "  _start                  %08x (phys)\n", [.word k.start]⟩]
      (plainText (literal "  _start                  ") ++
        (hexText k.start ++ plainText (literal " (phys)\n"))) := by
    have whole : literal "  _start                  %08x (phys)\n" =
        literal "  _start                  " ++
          (literal "%08x" ++ (literal " (phys)\n" ++ [])) := by
      decide +kernel
    have last := Renders.last (s := literal " (phys)\n") (by decide +kernel)
    refine .single (by decide +kernel) ?_
    rw [whole]
    exact .text (by decide +kernel) (.hex _ last)
  have footprint : Prints [⟨literal "Kernel executable memory footprint: %dKB\n",
      [.word ((ROUNDUP (k.finish - k.entry) 1024).sdiv 1024)]⟩]
      (plainText (literal "Kernel executable memory footprint: ") ++
        (digitsText .decimal k.kilobytes ++ plainText (literal "KB\n"))) := by
    have whole : literal "Kernel executable memory footprint: %dKB\n" =
        literal "Kernel executable memory footprint: " ++
          (literal "%d" ++ (literal "KB\n" ++ [])) := by
      decide +kernel
    have bound : k.kilobytes < 2 ^ 31 := by
      have := k.small
      rw [Linked.kilobytes]
      omega
    have last := Renders.last (s := literal "KB\n") (by decide +kernel)
    have number := decimalText_of_lt (v := (ROUNDUP (k.finish - k.entry) 1024).sdiv 1024)
      (by rw [footprint_toNat]; exact bound)
    rw [footprint_toNat] at number
    refine .single (by decide +kernel) ?_
    rw [whole, ← number]
    exact .text (by decide +kernel) (.decimal _ last)
  have entry := symbol_prints (literal "  entry  ") (literal "  entry  %08x (virt)  %08x (phys)\n")
    (by decide +kernel) (by decide +kernel) (by decide +kernel) k.entry
  have etext := symbol_prints (literal "  etext  ") (literal "  etext  %08x (virt)  %08x (phys)\n")
    (by decide +kernel) (by decide +kernel) (by decide +kernel) k.etext
  have edata := symbol_prints (literal "  edata  ") (literal "  edata  %08x (virt)  %08x (phys)\n")
    (by decide +kernel) (by decide +kernel) (by decide +kernel) k.edata
  have finish := symbol_prints (literal "  end    ") (literal "  end    %08x (virt)  %08x (phys)\n")
    (by decide +kernel) (by decide +kernel) (by decide +kernel) k.finish
  exact (((((header.append start).append entry).append etext).append edata).append finish).append
    footprint

end Jos
