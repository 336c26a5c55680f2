import Jos.Kern.CgaTerminal

/-!
# What the serial and the parallel port receive

Every character goes to both ports once, and then to the display, which prints a tab through
`cons_putc`, and with it through the ports a second time.
-/
namespace Jos

open Library

/-- What has gone to a port, in order. -/
def bytesTo (port : BitVec 32) (out : List Outb) : List (BitVec 8) :=
  (out.filter (·.port = port)).map (·.data)

theorem bytesTo_append (port : BitVec 32) (out more : List Outb) :
    bytesTo port (out ++ more) = bytesTo port out ++ bytesTo port more := by
  simp [bytesTo]

/-- The transmit register of COM1 and the parallel data port have both received `bytes`. -/
structure Sent (con con' : Console) (bytes : List (BitVec 8)) : Prop where
  adapter : con'.adapter = con.adapter
  sent : ∃ sent, con'.out = con.out ++ sent ∧ bytesTo (COM1 + COM_TX) sent = bytes ∧
    bytesTo (0x378 + 0) sent = bytes

namespace Sent

variable {con con' con'' : Console} {bytes bytes' : List (BitVec 8)}

theorem quiet (adapter : con'.adapter = con.adapter) (out : con'.out = con.out) :
    Sent con con' [] := ⟨adapter, [], by rw [out, List.append_nil], rfl, rfl⟩

theorem trans (first : Sent con con' bytes) (second : Sent con' con'' bytes') :
    Sent con con'' (bytes ++ bytes') := by
  obtain ⟨adapter, sent, out, serial, parallel⟩ := first
  obtain ⟨adapter', sent', out', serial', parallel'⟩ := second
  refine ⟨adapter'.trans adapter, sent ++ sent', ?_, ?_, ?_⟩
  · rw [out', out, List.append_assoc]
  · rw [bytesTo_append, serial, serial']
  · rw [bytesTo_append, parallel, parallel']

end Sent

section Display

variable {con con' : Console}

theorem crtStore_sent {i : Nat} {v : BitVec 16} (stored : con.crtStore i v = .ok con') :
    Sent con con' [] := by
  unfold Console.crtStore at stored
  split at stored
  · cases stored
    exact .quiet rfl rfl
  · cases stored

theorem blankLastRow_sent (cells : List Nat) {v : BitVec 16}
    (blanked : cells.foldlM (fun con i => con.crtStore i v) con = .ok con') :
    Sent con con' [] := by
  induction cells generalizing con with
  | nil =>
    cases blanked
    exact .quiet rfl rfl
  | cons i cells ih =>
    rw [List.foldlM_cons] at blanked
    obtain ⟨con₁, stored, rest⟩ := Exec.bind_eq_ok.mp blanked
    exact (crtStore_sent stored).trans (ih rest)

theorem scroll_sent (scrolled : con.scroll = .ok con') : Sent con con' [] := by
  unfold Console.scroll at scrolled
  split at scrolled
  · obtain ⟨con₁, blanked, rest⟩ := Exec.bind_eq_ok.mp scrolled
    cases rest
    obtain ⟨adapter, sent⟩ := blankLastRow_sent _ blanked
    exact ⟨adapter, sent⟩
  · cases scrolled
    exact .quiet rfl rfl

/-- The registers of the display controller are at ports of their own. -/
theorem moveCursor_quiet (con : Console) : Sent con con.moveCursor [] := by
  refine ⟨rfl, _, by simp only [Console.moveCursor, Console.outb, List.append_assoc]; rfl, ?_, ?_⟩ <;>
    cases con.adapter <;> simp [bytesTo, Adapter.addr6845] <;> decide

end Display

/-! ### One character -/

def lowByte (c : BitVec 32) : BitVec 8 := c.setWidth 8

/-- What the display sends to the ports itself: the blanks of a tab. -/
def resent (c : BitVec 32) : List (BitVec 8) :=
  if lowByte c = 9#8 then List.replicate 5 0x20#8 else []

section Character

variable {consPutc : BitVec 32 → Console → Exec Console} {c : BitVec 32} {con con' : Console}

theorem cgaSwitch_sent
    (blank : lowByte c = 9#8 → ∀ con con', consPutc 0x20 con = .ok con' → Sent con con' [0x20#8])
    (switched : con.cgaSwitch consPutc (withAttribute c) = .ok con') :
    Sent con con' (resent c) := by
  rw [cgaSwitch_eq] at switched
  unfold resent
  by_cases isTab : lowByte c = 9#8
  · -- each of the five blanks goes through both ports
    have tab : c.setWidth 8 = 9#8 := isTab
    rw [if_neg (by rw [tab]; decide), if_neg (by rw [tab]; decide), if_neg (by rw [tab]; decide),
      if_pos tab] at switched
    obtain ⟨con₁, first, switched⟩ := Exec.bind_eq_ok.mp switched
    obtain ⟨con₂, second, switched⟩ := Exec.bind_eq_ok.mp switched
    obtain ⟨con₃, third, switched⟩ := Exec.bind_eq_ok.mp switched
    obtain ⟨con₄, fourth, fifth⟩ := Exec.bind_eq_ok.mp switched
    have sent := blank isTab
    rw [if_pos isTab]
    exact (((sent _ _ first).trans (sent _ _ second)).trans (sent _ _ third)).trans
      ((sent _ _ fourth).trans (sent _ _ fifth))
  · rw [if_neg isTab]
    split at switched
    · split at switched
      · obtain ⟨adapter, sent⟩ := crtStore_sent switched
        exact ⟨adapter, sent⟩
      · cases switched
        exact .quiet rfl rfl
    · split at switched
      · cases switched
        exact .quiet rfl rfl
      · split at switched
        · cases switched
          exact .quiet rfl rfl
        · split at switched
          · next tab => exact absurd tab isTab
          · obtain ⟨con₁, stored, rest⟩ := Exec.bind_eq_ok.mp switched
            cases rest
            obtain ⟨adapter, sent⟩ := crtStore_sent stored
            exact ⟨adapter, sent⟩

theorem cgaPutcWith_sent
    (blank : lowByte c = 9#8 → ∀ con con', consPutc 0x20 con = .ok con' → Sent con con' [0x20#8])
    (printed : cgaPutcWith consPutc c con = .ok con') : Sent con con' (resent c) := by
  obtain ⟨con₁, switched, printed⟩ := Exec.bind_eq_ok.mp printed
  obtain ⟨con₂, scrolled, moved⟩ := Exec.bind_eq_ok.mp printed
  cases moved
  have sent := ((cgaSwitch_sent blank switched).trans (scroll_sent scrolled)).trans
    (moveCursor_quiet con₂)
  rwa [List.append_nil, List.append_nil] at sent

/-- The ports come first. -/
theorem ports_sent (c : BitVec 32) (con : Console) :
    Sent con ((con.serialPutc c).lptPutc c) [lowByte c] := by
  refine ⟨rfl, _, by simp only [Console.serialPutc, Console.lptPutc, Console.outb,
    List.append_assoc]; rfl, ?_, ?_⟩ <;> simp [bytesTo, lowByte, COM1, COM_TX]

theorem consPutcNested_sent (depth : Nat)
    (blank : lowByte c = 9#8 → ∀ con con', consPutcNested depth 0x20 con = .ok con' →
      Sent con con' [0x20#8])
    (printed : consPutcNested (depth + 1) c con = .ok con') :
    Sent con con' (lowByte c :: resent c) :=
  (ports_sent c con).trans (cgaPutcWith_sent blank printed)

end Character

/-- A blank is printed without another tab. -/
theorem consPutc_sent {c : BitVec 32} {con con' : Console} (printed : consPutc c con = .ok con') :
    Sent con con' (lowByte c :: resent c) := by
  refine consPutcNested_sent 1 (fun _ con con' blank => ?_) printed
  exact consPutcNested_sent 0 (fun isTab => absurd isTab (by decide)) blank

/-! ### Any text -/

/-- A run of `cputchar`. -/
def cputchars (text : List Int) (con : Console) : Exec Console :=
  text.foldlM (fun con c => cputchar c con) con

theorem cputchars_sent {text : List Int} {con con' : Console}
    (printed : cputchars text con = .ok con') :
    Sent con con' (text.flatMap fun c => lowByte (.ofInt 32 c) :: resent (.ofInt 32 c)) := by
  induction text generalizing con with
  | nil =>
    cases printed
    exact .quiet rfl rfl
  | cons c text ih =>
    rw [cputchars, List.foldlM_cons] at printed
    obtain ⟨con₁, first, rest⟩ := Exec.bind_eq_ok.mp printed
    rw [List.flatMap_cons]
    exact (consPutc_sent first).trans (ih rest)

theorem cputchars_shows {text : List Int} {con : Console} {s : CrtScreen} (shows : Shows con s) :
    ∃ con' s', cputchars text con = .ok con' ∧ Shows con' s' := by
  induction text generalizing con s with
  | nil => exact ⟨con, s, rfl, shows⟩
  | cons c text ih =>
    obtain ⟨con₁, printed, displayed⟩ := consPutc_shows (.ofInt 32 c) shows
    obtain ⟨con', s', rest, shows'⟩ := ih displayed.shows
    refine ⟨con', s', ?_, shows'⟩
    rw [cputchars, List.foldlM_cons, cputchar, printed]
    exact rest

theorem length_le_sent (text : List Int) :
    text.length ≤
      (text.flatMap fun c => lowByte (.ofInt 32 c) :: resent (.ofInt 32 c)).length := by
  induction text with
  | nil => exact Nat.le_refl 0
  | cons c text ih =>
    rw [List.flatMap_cons, List.length_append, List.length_cons, List.length_cons]
    omega

/-- Without tabs there is one byte for each character, with a tab there are more. -/
theorem sent_eq_iff (text : List Int) :
    (text.flatMap fun c => lowByte (.ofInt 32 c) :: resent (.ofInt 32 c)) =
      text.map (fun c => lowByte (.ofInt 32 c)) ↔ ∀ c ∈ text, lowByte (.ofInt 32 c) ≠ 9#8 := by
  induction text with
  | nil => simp
  | cons c text ih =>
    rw [List.flatMap_cons, List.map_cons, List.cons_append, List.cons.injEq, List.forall_mem_cons,
      ← ih, resent]
    by_cases isTab : lowByte (.ofInt 32 c) = 9#8
    · rw [if_pos isTab]
      constructor
      · rintro ⟨-, same⟩
        have longer := length_le_sent text
        have lengths := congrArg List.length same
        rw [List.length_append, List.length_replicate, List.length_map] at lengths
        omega
      · rintro ⟨noTab, -⟩
        exact absurd isTab noTab
    · rw [if_neg isTab, List.nil_append]
      simp [isTab]

/-- Both ports have received the low bytes of the text, in order, one write for each. -/
def PortsReceive (text : List Int) (con con' : Console) : Prop :=
  Sent con con' (text.map fun c => lowByte (.ofInt 32 c))

theorem portsReceive_iff {text : List Int} {con con' : Console}
    (printed : cputchars text con = .ok con') :
    PortsReceive text con con' ↔ ∀ c ∈ text, lowByte (.ofInt 32 c) ≠ 9#8 := by
  have sent := cputchars_sent printed
  rw [← sent_eq_iff]
  constructor
  · intro received
    obtain ⟨_, all, out, serial, _⟩ := sent
    obtain ⟨_, all', out', serial', _⟩ := received
    obtain rfl : all = all' := List.append_cancel_left (out.symm.trans out')
    exact serial.symm.trans serial'
  · intro same
    rwa [same] at sent

/-- From a cursor on the screen every text can be printed, and whatever has been printed, both
ports have received it exactly if there was no tab in it. -/
theorem cputchars_portsReceive_iff (text : List Int) (con : Console) :
    (con.crtPos.toNat < CRT_SIZE → ∃ con', cputchars text con = .ok con') ∧
      ∀ con', cputchars text con = .ok con' →
        (PortsReceive text con con' ↔ ∀ c ∈ text, lowByte (.ofInt 32 c) ≠ 9#8) := by
  constructor
  · intro inside
    obtain ⟨con', _, printed, _⟩ := @cputchars_shows text con _ (shows_screen inside)
    exact ⟨con', printed⟩
  · intro con' printed
    exact portsReceive_iff printed

/-- An empty display, the cursor in the first cell. -/
def emptyDisplay : Console := ⟨fun _ => 0, .cga, 0, []⟩

theorem cputchars_portsReceive_letter :
    ∃ con', cputchars [0x41] emptyDisplay = .ok con' ∧ PortsReceive [0x41] emptyDisplay con' := by
  obtain ⟨prints, receives⟩ := cputchars_portsReceive_iff [0x41] emptyDisplay
  obtain ⟨con', printed⟩ := prints (by decide)
  exact ⟨con', printed, (receives con' printed).mpr (by decide)⟩

/-- A tab reaches the serial port with the five blanks that the display makes of it. -/
theorem cputchars_portsReceive_tab :
    ∃ con', cputchars [9] emptyDisplay = .ok con' ∧
      bytesTo (COM1 + COM_TX) con'.out = [9, 0x20, 0x20, 0x20, 0x20, 0x20] ∧
      ¬ PortsReceive [9] emptyDisplay con' := by
  have cursor : emptyDisplay.crtPos.toNat < CRT_SIZE := by decide
  obtain ⟨con', _, printed, _⟩ := @cputchars_shows [9] emptyDisplay _ (shows_screen cursor)
  refine ⟨con', printed, ?_, ?_⟩
  · obtain ⟨_, sent, out, serial, _⟩ := cputchars_sent printed
    rw [out, bytesTo_append, serial]
    decide
  · rw [portsReceive_iff printed]
    decide

end Jos
