import Mathlib.Data.List.TakeWhile
import Jos.Lib.String
import Jos.Library.Framing

/-!
# gradelib.py: what stops a test

The output of QEMU and the answers of its GDB stub arrive in chunks, as `read` and `recv` return
them. `call_on_line` and `GDBClient` put them together again; `TerminateTest` ends a test in the
middle of a chunk.
-/
namespace Jos

open Library

def newline : UInt8 := '\n'.toUInt8

/-! ### call_on_line -/

/-- `if b"\n" in buf: line, buf[:] = buf.split(b"\n", 1)` -/
def splitLine (buf : List UInt8) : Option (List UInt8 × List UInt8) :=
  if newline ∈ buf then some (buf.takeWhile (· != newline), (buf.dropWhile (· != newline)).drop 1)
  else none

theorem splitLine_append (line rest : List UInt8) (whole : newline ∉ line) :
    splitLine (line ++ newline :: rest) = some (line, rest) := by
  have other : ∀ b ∈ line, (b != newline) = true := by
    intro b member
    rw [bne_iff_ne]
    rintro rfl
    exact whole member
  rw [splitLine, if_pos (by simp), List.takeWhile_append_of_pos other,
    List.dropWhile_append_of_pos other]
  simp

theorem splitLine_eq_some {buf line rest : List UInt8} (split : splitLine buf = some (line, rest)) :
    buf = line ++ newline :: rest ∧ newline ∉ line := by
  by_cases ended : newline ∈ buf
  · obtain ⟨line', rest', rfl, whole⟩ := List.eq_append_cons_of_mem ended
    rw [splitLine_append line' rest' whole, Option.some.injEq, Prod.mk.injEq] at split
    obtain ⟨rfl, rfl⟩ := split
    exact ⟨rfl, whole⟩
  · rw [splitLine, if_neg ended] at split
    cases split

/-- The loop over complete lines. -/
def lineFraming : Framing UInt8 (List UInt8) where
  next := splitLine
  shorter split := by
    obtain ⟨rfl, -⟩ := splitLine_eq_some split
    rw [List.length_append, List.length_cons]
    omega
  stable t split := by
    obtain ⟨rfl, whole⟩ := splitLine_eq_some split
    rw [List.append_assoc, List.cons_append, splitLine_append _ _ whole]

/-- The lines that `callback` has been called with, and `buf`. -/
structure LineCalls where
  calls : List (List UInt8)
  buf : List UInt8
deriving DecidableEq

section CallOnLine

variable (isMatch raises : List UInt8 → Bool)

/-- `handle_output`, and whether the callback has raised. `isMatch` is `re.match` on a decoded
line; the callback raises `TerminateTest` on the lines of `raises` and returns on the others. -/
def handleOutput (s : LineCalls) (output : List UInt8) : LineCalls × Bool :=
  let d := lineFraming.drain (fun line => isMatch line && raises line) (s.buf ++ output)
  (⟨s.calls ++ d.frames.filter isMatch, d.rest⟩, d.stopped)

/-- One chunk after the other, with whether the callback has raised on it. The handler stays in
`on_output` when it has. -/
def callOnLine : List (List UInt8) → LineCalls → LineCalls × List Bool
  | [], s => (s, [])
  | chunk :: chunks, s =>
    let (s, raised) := handleOutput isMatch raises s chunk
    let (s, later) := callOnLine chunks s
    (s, raised :: later)

end CallOnLine

def stopOnLine (isMatch : List UInt8 → Bool) : List (List UInt8) → LineCalls →
    LineCalls × List Bool :=
  callOnLine isMatch fun _ => true

/-! ### Lines that have ended -/

/-- Lines that have ended, and one that has not. -/
def linesText (lines : List (List UInt8)) (tail : List UInt8) : List UInt8 :=
  lines.flatMap (· ++ [newline]) ++ tail

theorem linesText_cons (line : List UInt8) (lines : List (List UInt8)) (tail : List UInt8) :
    linesText (line :: lines) tail = line ++ newline :: linesText lines tail := by
  simp [linesText]

/-- Every text is made up so. -/
theorem linesText_frames (text : List UInt8) :
    text = linesText (lineFraming.frames text) (lineFraming.left text) ∧
      (∀ line ∈ lineFraming.frames text, newline ∉ line) ∧ newline ∉ lineFraming.left text := by
  induction h : text.length using Nat.strongRecOn generalizing text with
  | _ n ih =>
    cases first : lineFraming.next text with
    | none =>
      obtain ⟨frames, left⟩ := Framing.frames_none first
      have open' : newline ∉ text := by
        intro ended
        rw [show lineFraming.next text = splitLine text from rfl, splitLine, if_pos ended] at first
        cases first
      rw [frames, left]
      exact ⟨rfl, by simp, open'⟩
    | some p =>
      obtain ⟨line, rest⟩ := p
      obtain ⟨split, whole⟩ := splitLine_eq_some first
      obtain ⟨text', whole', open'⟩ := ih rest.length (h ▸ lineFraming.shorter first) rest rfl
      obtain ⟨frames, left⟩ := Framing.frames_some first
      rw [frames, left, linesText_cons, ← text']
      exact ⟨split, List.forall_mem_cons.mpr ⟨whole, whole'⟩, open'⟩

/-! ### However the output is cut -/

section CallOnLine

variable (isMatch raises : List UInt8 → Bool)

/-- What the calls so far have used up, and what is still in the buffer. -/
theorem callOnLine_run (chunks : List (List UInt8)) (s : LineCalls) :
    ∃ seen, lineFraming.frames (s.buf ++ chunks.flatten) =
        seen ++ lineFraming.frames (callOnLine isMatch raises chunks s).1.buf ∧
      lineFraming.left (s.buf ++ chunks.flatten) =
        lineFraming.left (callOnLine isMatch raises chunks s).1.buf ∧
      (callOnLine isMatch raises chunks s).1.calls = s.calls ++ seen.filter isMatch ∧
      (callOnLine isMatch raises chunks s).2.count true =
        (seen.filter fun line => isMatch line && raises line).length := by
  induction chunks generalizing s with
  | nil => exact ⟨[], by simp [callOnLine], by simp [callOnLine], by simp [callOnLine], rfl⟩
  | cons chunk chunks ih =>
    obtain ⟨d, turn⟩ : ∃ d,
        lineFraming.drain (fun line => isMatch line && raises line) (s.buf ++ chunk) = d := ⟨_, rfl⟩
    have once := lineFraming.drain_once (fun line => isMatch line && raises line) (s.buf ++ chunk)
    obtain ⟨taken, behind⟩ :=
      lineFraming.drain_resume (fun line => isMatch line && raises line) (s.buf ++ chunk)
    rw [turn] at once taken behind
    have run : callOnLine isMatch raises (chunk :: chunks) s =
        ((callOnLine isMatch raises chunks ⟨s.calls ++ d.frames.filter isMatch, d.rest⟩).1,
          d.stopped ::
            (callOnLine isMatch raises chunks ⟨s.calls ++ d.frames.filter isMatch, d.rest⟩).2) := by
      rw [callOnLine, handleOutput, turn]
    obtain ⟨seen, frames, left, calls, count⟩ := ih ⟨s.calls ++ d.frames.filter isMatch, d.rest⟩
    rw [run, List.flatten_cons, ← List.append_assoc]
    refine ⟨d.frames ++ seen, ?_, ?_, ?_, ?_⟩
    · rw [(lineFraming.frames_append _ _).1, taken, behind, List.append_assoc,
        ← (lineFraming.frames_append _ _).1, frames, List.append_assoc]
    · rw [(lineFraming.frames_append _ _).2, behind, ← (lineFraming.frames_append _ _).2, left]
    · rw [calls, List.filter_append, List.append_assoc]
    · rw [List.count_cons, count, List.filter_append, List.length_append, once, Nat.add_comm]
      simp

/-- It raises as soon as a line has ended that it raises on. -/
theorem callOnLine_raises (chunks : List (List UInt8)) {s : LineCalls}
    (none : lineFraming.next s.buf = none) :
    (true ∈ (callOnLine isMatch raises chunks s).2 ↔
      (lineFraming.frames (s.buf ++ chunks.flatten)).any
        (fun line => isMatch line && raises line) = true) ∧
    (true ∉ (callOnLine isMatch raises chunks s).2 →
      lineFraming.next (callOnLine isMatch raises chunks s).1.buf = .none) := by
  induction chunks generalizing s with
  | nil => simp [callOnLine, (Framing.frames_none none).1, none]
  | cons chunk chunks ih =>
    obtain ⟨-, stops, rest⟩ :=
      lineFraming.drain_stop (fun line => isMatch line && raises line) (s.buf ++ chunk)
    rw [List.flatten_cons, ← List.append_assoc, (lineFraming.frames_append _ _).1, List.any_append,
      callOnLine, List.mem_cons, ← stops]
    by_cases raised : (handleOutput isMatch raises s chunk).2 = true
    · have stopped : (lineFraming.drain (fun line => isMatch line && raises line)
        (s.buf ++ chunk)).stopped = true := raised
      simp [raised, stopped]
    · have calm : (lineFraming.drain (fun line => isMatch line && raises line)
        (s.buf ++ chunk)).stopped = false := eq_false_of_ne_true raised
      have buf : (handleOutput isMatch raises s chunk).1.buf =
        lineFraming.left (s.buf ++ chunk) := rest calm
      obtain ⟨later, quiet⟩ := ih (s := (handleOutput isMatch raises s chunk).1)
        (by rw [buf]; exact Framing.next_left _)
      rw [buf] at later
      simpa [Bool.eq_false_iff.mpr raised, calm, ← later] using quiet

theorem callOnLine_take (n : Nat) (chunks : List (List UInt8)) (s : LineCalls) :
    (callOnLine isMatch raises chunks s).2.take n =
      (callOnLine isMatch raises (chunks.take n) s).2 := by
  induction chunks generalizing n s with
  | nil => simp [callOnLine]
  | cons chunk chunks ih =>
    cases n with
    | zero => rfl
    | succ n => exact congrArg (_ :: ·) (ih n _)

/-- However the output is cut into chunks, and whatever lines the callback raises on, no line is
lost and none is passed twice: the calls are those lines of a first part of the output that match,
in order, and the rest is still in `buf`. The callback raises once for every line of its calls that
it raises on, first in the chunk that completes such a line, and leaves nothing but an unfinished
line behind if there is none. -/
theorem call_on_line_chunks (chunks : List (List UInt8)) :
    ∃ s raised, callOnLine isMatch raises chunks ⟨[], []⟩ = (s, raised) ∧
      ∃ seen rest tail, chunks.flatten = linesText (seen ++ rest) tail ∧
        (∀ line ∈ seen ++ rest, newline ∉ line) ∧ newline ∉ tail ∧
        s.calls = seen.filter isMatch ∧ s.buf = linesText rest tail ∧
        raised.count true = (s.calls.filter raises).length ∧ (true ∉ raised → rest = []) ∧
        ∀ n, true ∈ raised.take n ↔
          ∃ line ∈ lineFraming.frames (chunks.take n).flatten,
            isMatch line = true ∧ raises line = true := by
  obtain ⟨seen, frames, left, calls, count⟩ := callOnLine_run isMatch raises chunks ⟨[], []⟩
  obtain ⟨whole, ended, open'⟩ := linesText_frames chunks.flatten
  have buf := (linesText_frames (callOnLine isMatch raises chunks ⟨[], []⟩).1.buf).1
  have start : lineFraming.next [] = none := rfl
  rw [List.nil_append] at frames left calls
  rw [frames] at whole ended
  rw [left] at whole open'
  refine ⟨_, _, rfl, seen, _, _, whole, ended, open', calls, buf, ?_, fun quiet => ?_, fun n => ?_⟩
  · rw [count, calls, List.filter_filter]
    simp only [Bool.and_comm]
  · have none := (callOnLine_raises isMatch raises chunks (s := ⟨[], []⟩) start).2 quiet
    exact (Framing.frames_none none).1
  · rw [callOnLine_take, (callOnLine_raises isMatch raises _ (s := ⟨[], []⟩) start).1]
    simp

end CallOnLine

-- `stop_on_line` gets one line after the other, and with an empty chunk those that are left
example : stopOnLine ((literal "K>").isPrefixOf ·)
    [literal "boot\nK", literal "> a\nK> b\nK", []] ⟨[], []⟩ =
      (⟨[literal "K> a", literal "K> b"], literal "K"⟩, [false, true, true]) := by decide +kernel

/-! ### GDBClient -/

/-- `decode("ascii", "replace")` -/
def decodeAscii (data : List UInt8) : List Char :=
  data.map fun b => if b < 128 then Char.ofNat b.toNat else '\uFFFD'

/-- `[0-9a-zA-Z]` -/
def isAlnum (c : Char) : Bool :=
  '0' ≤ c ∧ c ≤ '9' ∨ 'a' ≤ c ∧ c ≤ 'z' ∨ 'A' ≤ c ∧ c ≤ 'Z'

/-- `\$([^#]*)#[0-9a-zA-Z]{2}` at the start of the buffer: the group, and what is behind the
match. -/
def matchPacket : List Char → Option (List Char × List Char)
  | c :: buf =>
    if c = '$' then
      match buf.dropWhile (· != '#') with
      | _ :: a :: b :: rest =>
        if isAlnum a && isAlnum b then some (buf.takeWhile (· != '#'), rest) else none
      | _ => none
    else none
  | [] => none

/-- `re.search` -/
def searchPacket : List Char → Option (List Char × List Char)
  | [] => none
  | c :: buf => (matchPacket (c :: buf)).or (searchPacket buf)

theorem matchPacket_append {p : List Char} (whole : '#' ∉ p) (a b : Char) (rest : List Char) :
    matchPacket ('$' :: (p ++ '#' :: a :: b :: rest)) =
      if isAlnum a && isAlnum b then some (p, rest) else none := by
  have other : ∀ c ∈ p, (c != '#') = true := by
    intro c member
    rw [bne_iff_ne]
    rintro rfl
    exact whole member
  rw [matchPacket, if_pos rfl, List.takeWhile_append_of_pos other,
    List.dropWhile_append_of_pos other]
  simp

theorem matchPacket_eq_some {buf p rest : List Char} (found : matchPacket buf = some (p, rest)) :
    ∃ a b, (isAlnum a && isAlnum b) = true ∧ '#' ∉ p ∧
      buf = '$' :: (p ++ '#' :: a :: b :: rest) := by
  cases buf with
  | nil => cases found
  | cons c buf =>
    rw [matchPacket] at found
    split at found
    · next start =>
      split at found
      · next h a b rest' dropped =>
        split at found
        · next alnum =>
          obtain ⟨rfl, rfl⟩ := Prod.mk.inj (Option.some.inj found)
          have first : h = '#' := by
            have stopped := List.head?_dropWhile_not (· != '#') buf
            rw [dropped] at stopped
            simpa using stopped
          have split := List.takeWhile_append_dropWhile (p := (· != '#')) (l := buf)
          rw [dropped, first] at split
          refine ⟨a, b, alnum, fun member => ?_, by rw [start, split]⟩
          exact absurd (List.mem_takeWhile_imp member) (by simp)
        · cases found
      · cases found
    · cases found

/-- A match needs two characters behind a `#`, and the first `#` has them too. -/
theorem searchPacket_hash {buf : List Char} {found : List Char × List Char}
    (some' : searchPacket buf = some found) :
    ∃ before a b rest, '#' ∉ before ∧ buf = before ++ '#' :: a :: b :: rest := by
  induction buf with
  | nil => cases some'
  | cons c buf ih =>
    rw [searchPacket] at some'
    cases here : matchPacket (c :: buf) with
    | some packet =>
      obtain ⟨a, b, -, whole, split⟩ := matchPacket_eq_some here
      rw [split]
      exact ⟨'$' :: packet.1, a, b, packet.2, by simp [whole], rfl⟩
    | none =>
      rw [here, Option.none_or] at some'
      obtain ⟨before, a, b, rest, whole, rfl⟩ := ih some'
      by_cases first : c = '#'
      · -- then the first two of what follows are behind it
        subst first
        cases before with
        | nil => exact ⟨[], '#', a, b :: rest, by simp, rfl⟩
        | cons d before =>
          cases before with
          | nil => exact ⟨[], d, '#', a :: b :: rest, by simp, rfl⟩
          | cons e before => exact ⟨[], d, e, _, by simp, rfl⟩
      · exact ⟨c :: before, a, b, rest, by simp [whole, Ne.symm first], rfl⟩

theorem searchPacket_stable {buf p rest : List Char} (t : List Char)
    (found : searchPacket buf = some (p, rest)) :
    searchPacket (buf ++ t) = some (p, rest ++ t) := by
  induction buf with
  | nil => cases found
  | cons c buf ih =>
    rw [List.cons_append, searchPacket]
    rw [searchPacket] at found
    cases here : matchPacket (c :: buf) with
    | some packet =>
      rw [here, Option.some_or, Option.some.injEq] at found
      subst found
      obtain ⟨a, b, alnum, whole, split⟩ := matchPacket_eq_some here
      have longer : c :: (buf ++ t) = '$' :: (p ++ '#' :: a :: b :: (rest ++ t)) := by
        rw [← List.cons_append, split]
        simp
      rw [longer, matchPacket_append whole, if_pos alnum, Option.some_or]
    | none =>
      rw [here, Option.none_or] at found
      -- what failed here fails for good: the two characters behind the `#` are there
      have still : matchPacket (c :: (buf ++ t)) = none := by
        by_cases start : c = '$'
        · obtain ⟨before, a, b, rest', whole, rfl⟩ := searchPacket_hash found
          subst start
          rw [matchPacket_append whole] at here
          rw [List.append_assoc, List.cons_append, List.cons_append, List.cons_append,
            matchPacket_append whole]
          split at here
          · cases here
          · next not => rw [if_neg not]
        · rw [matchPacket, if_neg start]
      rw [still, Option.none_or, ih found]

/-- The loop over complete packets. -/
def packetFraming : Framing Char (List Char) where
  next := searchPacket
  shorter := by
    intro buf p rest found
    induction buf with
    | nil => cases found
    | cons c buf ih =>
      rw [searchPacket] at found
      cases here : matchPacket (c :: buf) with
      | some packet =>
        rw [here, Option.some_or, Option.some.injEq] at found
        subst found
        obtain ⟨a, b, -, -, split⟩ := matchPacket_eq_some here
        rw [split]
        simp only [List.length_cons, List.length_append]
        omega
      | none =>
        rw [here, Option.none_or] at found
        exact Nat.lt_succ_of_lt (ih found)
  stable t found := searchPacket_stable t found

/-- `pkt.startswith("T05")`: a breakpoint -/
def isStop (pkt : List Char) : Bool := "T05".toList.isPrefixOf pkt

def hexDigit (d : Nat) : Char := ("0123456789abcdef".toList).getD d '0'

/-- `"$%s#%02x" % (cmd, sum(map(ord, cmd)) % 256)`, what `__send` sends. -/
def sendPacket (cmd : List Char) : List Char :=
  let sum := cmd.foldl (· + ·.toNat) 0 % 256
  '$' :: (cmd ++ ['#', hexDigit (sum / 16), hexDigit (sum % 16)])

/-- A packet, and what comes before it. -/
structure GdbMessage where
  noise : List Char
  payload : List Char
  check₁ : Char
  check₂ : Char
  quiet : '$' ∉ noise
  whole : '#' ∉ payload
  alnum : (isAlnum check₁ && isAlnum check₂) = true

def GdbMessage.text (m : GdbMessage) : List Char :=
  m.noise ++ '$' :: (m.payload ++ ['#', m.check₁, m.check₂])

theorem isAlnum_hexDigit : ∀ d < 16, isAlnum (hexDigit d) = true := by
  decide

/-- A packet as `__send` makes it. -/
def GdbMessage.sent (noise cmd : List Char) (quiet : '$' ∉ noise) (whole : '#' ∉ cmd) :
    GdbMessage where
  noise := noise
  payload := cmd
  check₁ := hexDigit (cmd.foldl (· + ·.toNat) 0 % 256 / 16)
  check₂ := hexDigit (cmd.foldl (· + ·.toNat) 0 % 256 % 16)
  quiet := quiet
  whole := whole
  alnum := by
    rw [isAlnum_hexDigit _ (by omega), isAlnum_hexDigit _ (by omega)]
    rfl

theorem searchPacket_noise {noise : List Char} (quiet : '$' ∉ noise) (buf : List Char) :
    searchPacket (noise ++ buf) = searchPacket buf := by
  induction noise with
  | nil => rfl
  | cons c noise ih =>
    obtain ⟨other, later⟩ : '$' ≠ c ∧ '$' ∉ noise := by simpa using quiet
    rw [List.cons_append, searchPacket, matchPacket, if_neg (Ne.symm other), Option.none_or,
      ih later]

theorem searchPacket_message (m : GdbMessage) (rest : List Char) :
    searchPacket (m.text ++ rest) = some (m.payload, rest) := by
  have split : m.text ++ rest =
      m.noise ++ '$' :: (m.payload ++ '#' :: m.check₁ :: m.check₂ :: rest) := by
    simp [GdbMessage.text]
  rw [split, searchPacket_noise m.quiet, searchPacket, matchPacket_append m.whole, if_pos m.alnum,
    Option.some_or]

/-- What the client sends is a packet as it reads them itself. -/
theorem searchPacket_sendPacket {cmd : List Char} (whole : '#' ∉ cmd) (rest : List Char) :
    searchPacket (sendPacket cmd ++ rest) = some (cmd, rest) :=
  searchPacket_message (.sent [] cmd List.not_mem_nil whole) rest

theorem frames_packets (ms : List GdbMessage) {tail : List Char} (none : searchPacket tail = none) :
    packetFraming.frames (ms.flatMap GdbMessage.text ++ tail) = ms.map GdbMessage.payload ∧
      packetFraming.left (ms.flatMap GdbMessage.text ++ tail) = tail := by
  induction ms with
  | nil => exact Framing.frames_none none
  | cons m ms ih =>
    have first : packetFraming.next ((m :: ms).flatMap GdbMessage.text ++ tail) =
        some (m.payload, ms.flatMap GdbMessage.text ++ tail) := by
      rw [List.flatMap_cons, List.append_assoc]
      exact searchPacket_message m _
    obtain ⟨frames, left⟩ := Framing.frames_some first
    exact ⟨frames.trans (congrArg (m.payload :: ·) ih.1), left.trans ih.2⟩

end Jos
