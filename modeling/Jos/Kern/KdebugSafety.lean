import Jos.Kern.KdebugLookup

/-!
# debuginfo_eip stays inside its tables

Whatever the tables hold, the three searches only ever lose one index to the left, and only
from a stab of the type that they search for. The file search begins at the header entry,
which is of no type that is searched, so no index falls below 0.
-/
namespace Jos

open Library

/-- Both names have a NUL in the string table or in the constant, and the function's name is
measured up to its colon. -/
structure NamesInside (stabstr : List UInt8) (info : Eipdebuginfo) : Prop where
  file : 0 ∈ info.eipFile.object stabstr
  fnName : 0 ∈ info.eipFnName.object stabstr
  namelen : info.eipFnNamelen =
    ((info.eipFnName.object stabstr).takeWhile fun b => b ≠ 0 ∧ b ≠ ':'.toUInt8).length

/-- The length that `debuginfo_eip` starts with is that of the constant. -/
theorem unknown_namelen (stabstr : List UInt8) :
    ((Name.unknown.object stabstr).takeWhile fun b => b ≠ 0 ∧ b ≠ ':'.toUInt8).length = 9 := by
  rw [show Name.unknown.object stabstr = "<unknown>".toUTF8.toList ++ [0] from rfl]
  decide +kernel

/-- The first entry, if there is one, is of type 0, as the linker makes it. -/
def Headed (stabs : List Stab) : Prop := ∀ s ∈ stabs.head?, s.type = 0

theorem Headed.stabKey_zero {stabs : List Stab} (headed : Headed stabs) {type : Int}
    (other : type ≠ 0) : stabKey stabs type 0 = none := by
  by_contra typed
  obtain ⟨v, key⟩ := Option.ne_none_iff_exists'.mp typed
  obtain ⟨s, read, same, _⟩ := stabKey_eq_some_iff.mp key
  have header := headed s (by simpa [List.head?_eq_getElem?] using (readAt_eq_ok_iff.mp read).2)
  exact other (same.symm.trans header)

/-- A search that may begin before `L` begins at 0 at least, if `L` is no earlier than that and
the header is not of the type. -/
theorem Matched.nonneg {stabs : List Stab} (headed : Headed stabs) {type L R left right : Int}
    (matched : Matched stabs type L R left right) (low : 0 ≤ L) (other : type ≠ 0) :
    0 ≤ left := by
  have left_in := matched.left_in
  by_contra negative
  obtain rfl : L = 0 := by omega
  exact matched.edge (by omega) (headed.stabKey_zero other)

/-- On a table with a header the lookup finds no file or all of its searches end inside the
table. -/
theorem Headed.searches {stabs : List Stab} (headed : Headed stabs) (addr : UInt32) :
    (∃ rfile, stabBinsearch stabs 0 ((stabs.length : Int) - 1) N_SO addr = .ok (0, rfile)) ∨
      ∃ f fEnd g gEnd k kEnd fn line, Searches stabs addr f fEnd g gEnd k kEnd fn line := by
  rcases lineRange_cases stabs addr with none | ⟨typed, _⟩ | ⟨f, fEnd, g, gEnd, fn, range⟩
  · exact .inl none
  · exact absurd (headed.stabKey_zero (by decide)) typed
  right
  obtain ⟨left, right, lines, outcome⟩ := range.lineSearch
  have nonneg : 0 ≤ left := by
    rcases outcome with missed | matched
    · have := missed.left
      omega
    · exact matched.nonneg headed (by omega) (by decide)
  obtain ⟨k, kEnd, line, _, _, searches⟩ := range.searches lines nonneg
  exact ⟨f, fEnd, g, gEnd, k, kEnd, fn, line, searches⟩

theorem report_namesInside (stabs : List Stab) {stabstr : List UInt8} (addr : UInt32)
    (terminated : stabstr.getLast? = some 0) (f g gEnd k kEnd : Nat) (fn line : Stab) :
    NamesInside stabstr (report stabs stabstr addr f g gEnd k kEnd fn line) where
  file := namedFile_terminated stabs terminated f (g + 1)
  fnName := by
    dsimp only [report, functionInfo]
    split
    · exact nameAt_terminated terminated fn (unknown_terminated stabstr)
    · exact unknown_terminated stabstr
  namelen := rfl

/-- `debuginfo_eip` ends without a read outside its tables, whatever they hold, and the names
that it returns are terminated inside them. -/
theorem debuginfoEip_inside (stabs : List Stab) (stabstr : List UInt8) (addr : UInt32)
    (headed : Headed stabs) (kernel : ULIM ≤ addr) :
    ∃ result info, debuginfoEip stabs stabstr addr = .ok (result, info) ∧
      NamesInside stabstr info := by
  have unknown := unknown_terminated stabstr
  have nothing : NamesInside stabstr (initialInfo addr) :=
    ⟨unknown, unknown, congrArg Nat.cast (unknown_namelen stabstr).symm⟩
  by_cases terminated : stabstr.getLast? = some 0
  · rcases headed.searches addr with ⟨rfile, none⟩ | ⟨f, fEnd, g, gEnd, k, kEnd, fn, line, searches⟩
    · exact ⟨-1, _, debuginfoEip_noFile kernel terminated none, nothing⟩
    · exact ⟨0, _, searches.returned kernel terminated,
        report_namesInside stabs addr terminated f g gEnd k kEnd fn line⟩
  · exact ⟨-1, _, debuginfoEip_refused stabs kernel terminated, nothing⟩

/-- Out of order, with a file and a function at the address where the search wraps. -/
def wrappingTable : List Stab :=
  [⟨1, 0, 4, 0⟩, ⟨99, 0x24, 0, 0xffffffff⟩, ⟨1, 0x64, 0, 0xffffffff⟩, ⟨0, 0x44, 4, 7⟩,
    ⟨8, 0x64, 0, 3⟩]

theorem debuginfoEip_inside_last :
    ∃ result info, debuginfoEip wrappingTable smallStrings 0xffffffff = .ok (result, info) ∧
      NamesInside smallStrings info :=
  debuginfoEip_inside wrappingTable smallStrings 0xffffffff
    (by intro s header; cases header; rfl) (by decide)

end Jos
