import Jos.Lib.String

/-!
# kern/kdebug.c

The stab table and the string table are the two objects between the linker's symbols. An
`int` index into the stab table is an `Int`: a table of 12-byte entries in a 32-bit space
is too short for any sum of two indices to overflow.
-/
namespace Jos

open Library

structure Stab where
  nStrx : UInt32
  nType : UInt8
  nDesc : UInt16
  nValue : UInt32
  deriving DecidableEq, Repr

def N_FUN : Int := 0x24
def N_SLINE : Int := 0x44
def N_SO : Int := 0x64
def N_SOL : Int := 0x84
def N_PSYM : Int := 0xa0

def ULIM : UInt32 := 0xef800000

def Stab.type (s : Stab) : Int := s.nType.toNat

/-! ### stab_binsearch -/

/-- `while (m >= l && stabs[m].n_type != type) m--` -/
def slideLeft (stabs : List Stab) (type l : Int) (m : Int) : Exec Int :=
  whileLoop
    (fun m => if m ≥ l then (fun s => decide (s.type ≠ type)) <$> readAt stabs m else pure false)
    (fun m => pure (m - 1)) ((m - l + 1).toNat + 1) m

/-- The variables of `stab_binsearch`, with what its two pointers point to. -/
structure SearchVars where
  l : Int
  r : Int
  regionLeft : Int
  regionRight : Int
  anyMatches : Bool
  addr : UInt32

/-- One turn of the search loop. -/
def SearchVars.probe (stabs : List Stab) (type : Int) (v : SearchVars) : Exec SearchVars := do
  let trueM := (v.l + v.r).tdiv 2
  -- search for earliest stab with right type
  let m ← slideLeft stabs type v.l trueM
  if m < v.l then
    pure { v with l := trueM + 1 }
  else
    -- actual binary search
    let stab ← readAt stabs m
    if stab.nValue < v.addr then
      pure { v with anyMatches := true, regionLeft := m, l := trueM + 1 }
    else if stab.nValue > v.addr then
      pure { v with anyMatches := true, regionRight := m - 1, r := m - 1 }
    else
      -- exact match for 'addr', but continue loop to find *region_right
      pure { v with anyMatches := true, regionLeft := m, l := m, addr := v.addr + 1 }

/-- The search loop. Two turns for each index suffice, see `search_total`. -/
def SearchVars.search (stabs : List Stab) (type : Int) (v : SearchVars) : Exec SearchVars :=
  whileLoop (fun v => pure (decide (v.l ≤ v.r))) (SearchVars.probe stabs type)
    (2 * (v.r - v.l + 1).toNat + 2) v

/-- The region `(*region_left, *region_right)` left by `stab_binsearch`. -/
def stabBinsearch (stabs : List Stab) (regionLeft regionRight type : Int) (addr : UInt32) :
    Exec (Int × Int) := do
  let v ← SearchVars.search stabs type
    { l := regionLeft, r := regionRight, regionLeft, regionRight, anyMatches := false, addr }
  if ¬v.anyMatches then
    pure (v.regionLeft, v.regionLeft - 1)
  else
    -- find rightmost region containing 'addr': the loop that fixes up *region_left is the
    -- loop that slides to a stab of the type, kept above *region_left
    let l ← slideLeft stabs type (v.regionLeft + 1) v.regionRight
    pure (l, v.regionRight)

/-! ### debuginfo_eip -/

/-- A `const char *` of `struct Eipdebuginfo`. -/
inductive Name where
  | unknown
  | stabstr (offset : Nat)
  deriving DecidableEq, Repr

/-- What the pointer points to. -/
def Name.object (stabstr : List UInt8) : Name → List UInt8
  | .unknown => "<unknown>".toUTF8.toList ++ [0]
  | .stabstr offset => stabstr.drop offset

structure Eipdebuginfo where
  eipFile : Name
  eipLine : Int
  eipFnName : Name
  eipFnNamelen : Int
  eipFnAddr : UInt32
  eipFnNarg : Int
  deriving DecidableEq, Repr

/-- The name at `stab.n_strx`, kept at `old` when that is outside the string table. -/
def nameAt (stabstr : List UInt8) (stab : Stab) (old : Name) : Name :=
  if stab.nStrx.toNat < stabstr.length then .stabstr stab.nStrx.toNat else old

/-- Search backwards from `lline` for the relevant filename stab. -/
def searchFile (stabs : List Stab) (lfile lline : Int) : Exec Int :=
  whileLoop
    (fun lline =>
      if lline ≥ lfile then
        (fun s => decide (s.type ≠ N_SOL ∧ (s.type ≠ N_SO ∨ s.nValue = 0))) <$>
          readAt stabs lline
      else pure false)
    (fun lline => pure (lline - 1)) ((lline - lfile + 1).toNat + 1) lline

/-- Count the `N_PSYM` stabs from `lline` on that lie before `rfun`. -/
def countArgs (stabs : List Stab) (rfun lline : Int) : Exec Int :=
  (·.2) <$> whileLoop
    (fun s : Int × Int =>
      if s.1 < rfun then (fun p => decide (p.type = N_PSYM)) <$> readAt stabs s.1 else pure false)
    (fun s => pure (s.1 + 1, s.2 + 1)) ((rfun - lline).toNat + 1) (lline, 0)

/-- The last part of `debuginfo_eip`: the source file's name and the number of arguments. -/
def nameFileAndArgs (stabs : List Stab) (stabstr : List UInt8) (info : Eipdebuginfo)
    (lfile lline lfun rfun : Int) : Exec (Int × Eipdebuginfo) := do
  let lline ← searchFile stabs lfile lline
  let info ←
    if lline ≥ lfile then do
      let stab ← readAt stabs lline
      pure { info with eipFile := nameAt stabstr stab info.eipFile }
    else pure info
  if lfun < rfun then do
    let narg ← countArgs stabs rfun (lfun + 1)
    pure (0, { info with eipFnNarg := narg })
  else pure (0, info)

/-- What `debuginfo_eip` does once the source file is known. -/
def debuginfoEipFile (stabs : List Stab) (stabstr : List UInt8) (addr : UInt32)
    (info : Eipdebuginfo) (lfile rfile : Int) : Exec (Int × Eipdebuginfo) := do
  -- search within that file's stabs for the function definition
  let (lfun, rfun) ← stabBinsearch stabs lfile rfile N_FUN addr
  let (info, addr, lline) ←
    if lfun ≤ rfun then do
      let stab ← readAt stabs lfun
      let info := { info with
        eipFnName := nameAt stabstr stab info.eipFnName
        eipFnAddr := stab.nValue }
      pure (info, addr - stab.nValue, lfun)
    else
      -- couldn't find function stab; maybe we're in an assembly file
      pure ({ info with eipFnAddr := addr }, addr, lfile)
  -- ignore stuff after the colon
  let namelen ← strfind (info.eipFnName.object stabstr) ':'.toUInt8
  let info := { info with eipFnNamelen := namelen }
  -- the line search runs in the function's bounds, not in lline and rline
  let (lfun, rfun) ← stabBinsearch stabs lfun rfun N_SLINE addr
  let stab ← readAt stabs lfun
  let info := { info with eipLine := stab.nDesc.toNat }
  nameFileAndArgs stabs stabstr info lfile lline lfun rfun

def debuginfoEip (stabs : List Stab) (stabstr : List UInt8) (addr : UInt32) :
    Exec (Int × Eipdebuginfo) := do
  let info : Eipdebuginfo :=
    { eipFile := .unknown, eipLine := 0, eipFnName := .unknown, eipFnNamelen := 9,
      eipFnAddr := addr, eipFnNarg := 0 }
  if addr ≥ ULIM then
    -- string table validity checks
    if stabstr.getLast? ≠ some 0 then pure (-1, info)
    else
      let (lfile, rfile) ← stabBinsearch stabs 0 (stabs.length - 1) N_SO addr
      if lfile = 0 then pure (-1, info)
      else debuginfoEipFile stabs stabstr addr info lfile rfile
  else
    -- can't search for user-level addresses yet
    .error .panicked

end Jos
