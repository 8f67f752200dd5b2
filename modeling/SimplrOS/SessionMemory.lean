import SimplrOS.Echo
import SimplrOS.LineEditor

/-!
# The shell on its arrays

`shell_run` keeps one array `input` of 256 characters and one array `argv` of 16
pointers for all lines.  Neither is cleared: a line is written over the pieces of
the last one, which `shell_parse` has cut with NULs, and `argv` still points into
them.  `arraysKey` is the shell on these arrays, with pointers as offsets into
`input` and the commands reading their arguments from memory.

`Arrays.Holds` relates it to the shell on lists: the characters typed so far are the
front of `input`, whatever lies behind them.  It is kept by every key, so that the
leftovers never show and no store leaves the arrays.
-/

namespace Shell

open ByteStore Fsso Words

/-! ## The shell on memory -/

/-- The state of `shell_run` and `shell_readline`; the log of stores to `input` is part
of `line`, that of the stores to `argv` is `slots`. -/
structure Arrays where
  con : Console
  line : Readline
  argv : Nat → Nat
  slots : List Nat
  shiftPressed : Bool
  clock : Nat

/-- `str_eq` of the string at `a` and a literal. -/
def strEqAt (mem : Bytes) (a : Nat) : List UInt8 → Bool
  | [] => mem a == 0
  | c :: rest => if mem a ≠ 0 ∧ mem a = c then strEqAt mem (a + 1) rest else mem a == c

/-- The commands of `shell_run` on the arrays that `shell_parse` leaves. -/
def runParsed (K : Kernel) (fs : FssoFilesystem) (t : Nat) (con : Console) (s : Parse) :
    Console × Nat :=
  if s.argc = 0 then (con, t)
  else if strEqAt s.buffer (s.argv 0) (ascii "echo") then (cmdEcho con s.arguments, t)
  else if strEqAt s.buffer (s.argv 0) (ascii "clear") then (cmdClear K.screen.pps con, t)
  else if strEqAt s.buffer (s.argv 0) (ascii "ls") then cmdLs K.drive fs t con
  else if strEqAt s.buffer (s.argv 0) (ascii "cat") then cmdCat K fs t con s.arguments
  else if strEqAt s.buffer (s.argv 0) (ascii "help") then (cmdHelp con, t)
  else
    (shellPutchar (shellPrint (shellPrint con (ascii "Unknown command: "))
      (charsAt s.buffer (s.argv 0) shellMaxInput)) newline, t)

/-- The end of a line: the rest of the round of `shell_run`, and the next prompt.  `none`
is a parser that does not come to an end. -/
def endLine (K : Kernel) (fs : FssoFilesystem) (s : Arrays) : Option Arrays :=
  let line := s.line.store s.line.len 0
  let con := shellPutchar s.con newline
  if line.buffer 0 = 0 then
    some { s with con := prompt con, line := { line with len := 0 } }
  else
    (parseLoop shellMaxArgs (shellMaxInput + 1) ⟨line.buffer, 0, s.argv, 0, [], []⟩).map fun p =>
      let (con, clock) := runParsed K fs s.clock con p
      { s with
        con := prompt con
        line := ⟨p.buffer, 0, line.stores ++ p.stores⟩
        argv := p.argv
        slots := s.slots ++ p.slots
        clock := clock }

/-- One round of the loop of `shell_readline`. -/
def arraysKey (K : Kernel) (fs : FssoFilesystem) (s : Arrays) (scancode : UInt8) :
    Option Arrays :=
  let (c, shiftPressed) := readKey s.shiftPressed scancode
  let s := { s with shiftPressed := shiftPressed }
  if c = 0 then some s
  else if c = newline then endLine K fs s
  else if c = backspace then
    if s.line.len > 0 then
      some { s with con := shellBackspace s.con, line := { s.line with len := s.line.len - 1 } }
    else some s
  else if s.line.len < shellMaxInput - 1 then
    some { s with
      con := shellPutchar s.con c
      line := { s.line.store s.line.len c with len := s.line.len + 1 } }
  else some s

/-- A session on arrays with the given old contents. -/
def arraysRun (K : Kernel) (fs : FssoFilesystem) (t : Nat) (con : Console) (input : Bytes)
    (argv : Nat → Nat) (keys : List UInt8) : Option Arrays :=
  keys.foldlM (arraysKey K fs) ⟨prompt con, ⟨input, 0, []⟩, argv, [], false, t⟩

/-- The arrays hold the shell's state, and no store was outside them. -/
structure Arrays.Holds (a : Arrays) (s : State) : Prop where
  con : a.con = s.con
  line : a.line.Holds s.input
  shiftPressed : a.shiftPressed = s.shiftPressed
  clock : a.clock = s.clock
  slots : ∀ i ∈ a.slots, i < shellMaxArgs

/-! ## Comparing strings -/

theorem strEqAt_eq {mem : Bytes} {a : Nat} {w : List UInt8} (h : HoldsString mem a w)
    (hw : ∀ c ∈ w, c ≠ 0) {lit : List UInt8} (hlit : ∀ c ∈ lit, c ≠ 0) :
    strEqAt mem a lit = strEq w lit := by
  induction lit generalizing a w with
  | nil =>
      cases w with
      | nil =>
          have hnul : mem a = 0 := h.nul
          simp [strEqAt, strEq, hnul]
      | cons d rest =>
          have hhead := h.head
          have hne := hw d List.mem_cons_self
          simp [strEqAt, strEq, hhead, hne]
  | cons c lit ih =>
      have hc := hlit c List.mem_cons_self
      cases w with
      | nil =>
          have hnul : mem a = 0 := h.nul
          simp [strEqAt, strEq, hnul, Ne.symm hc]
      | cons d rest =>
          have hhead := h.head
          have hne := hw d List.mem_cons_self
          have hrest := ih h.tail (fun x hx => hw x (List.mem_cons_of_mem d hx))
            (fun x hx => hlit x (List.mem_cons_of_mem c hx))
          rw [strEqAt, strEq, hhead, hrest]
          by_cases heq : d = c
          · simp [heq, hc]
          · simp [heq]

/-- The words that `shell_run` compares the command with. -/
def commandWords : List (List UInt8) :=
  [ascii "echo", ascii "clear", ascii "ls", ascii "cat", ascii "help"]

theorem commandWords_string : ∀ lit ∈ commandWords, ∀ c ∈ lit, c ≠ 0 := by
  decide +kernel

/-! ## One line -/

/-- What a finished line leaves in the arrays. -/
theorem parseLoop_line {buffer : Bytes} {line : List UInt8} (h : HoldsString buffer 0 line)
    (hline : ∀ c ∈ line, c ≠ 0) (hlen : line.length ≤ 255) (argv : Nat → Nat) :
    ∃ s, parseLoop shellMaxArgs (shellMaxInput + 1) ⟨buffer, 0, argv, 0, [], []⟩ = some s ∧
      s.arguments = shellParse line shellMaxArgs ∧ (∀ i ∈ s.stores, i < 256) ∧
      (∀ i ∈ s.slots, i < shellMaxArgs) ∧
      ∀ w rest, s.arguments = w :: rest → HoldsString s.buffer (s.argv 0) w ∧ ∀ c ∈ w, c ≠ 0 := by
  obtain ⟨s, found, left, hparse, hscan, _, _⟩ := parseLoop_of_scanned
    (Parse.Scanned.of_line h hline argv) (by simp) (show line.length + 1 < 257 by omega)
  obtain ⟨s', hparse', harguments⟩ := parseLoop_arguments h hline hlen argv (Nat.le_refl 257)
  have hsame : s' = s := Option.some.inj (hparse'.symm.trans hparse)
  subst hsame
  refine ⟨s', hparse, harguments, fun i hi => ?_, hscan.slots, fun w rest hw => ?_⟩
  · have := hscan.stores i hi
    omega
  · have hargc := hscan.argc
    have hlength := congrArg List.length hw
    rw [Parse.arguments, List.length_map, List.length_range, List.length_cons] at hlength
    have hpos : 0 < found.length := by omega
    obtain ⟨hcopy, _, _⟩ := hscan.argv 0 hpos
    have hword : found[0] ∈ words space line := by
      rw [hscan.split]
      exact List.mem_append_left _ (List.getElem_mem hpos)
    obtain ⟨_, hsub⟩ := of_mem_words _ hword
    have hstring : ∀ c ∈ found[0], c ≠ 0 := fun c hc => hline c (hsub.subset hc)
    have hchars := hcopy.charsAt_eq hstring
      (show found[0].length < shellMaxInput from Nat.lt_succ_of_le (hsub.length_le.trans hlen))
    have hfirst : w = found[0] := by
      have hhead := congrArg (fun l => l.getD 0 []) hw
      simp only [Parse.arguments, List.getD_cons_zero] at hhead
      rw [← hhead, ← hchars]
      simp [hargc, hpos]
    rw [hfirst]
    exact ⟨hcopy, hstring⟩

/-- The commands find the same strings in memory. -/
theorem runParsed_eq (K : Kernel) (fs : FssoFilesystem) (t : Nat) (con : Console) {s : Parse}
    {line : List UInt8} (harguments : s.arguments = shellParse line shellMaxArgs)
    (hfirst : ∀ w rest, s.arguments = w :: rest →
      HoldsString s.buffer (s.argv 0) w ∧ ∀ c ∈ w, c ≠ 0) :
    runParsed K fs t con s = runLine K fs t con line := by
  have hargc : s.argc = s.arguments.length := by
    rw [Parse.arguments, List.length_map, List.length_range]
  rw [runParsed, runLine, ← harguments]
  cases hargs : s.arguments with
  | nil =>
      rw [hargs, List.length_nil] at hargc
      rw [if_pos hargc]
  | cons w rest =>
      obtain ⟨hholds, hstring⟩ := hfirst w rest hargs
      have hchars : charsAt s.buffer (s.argv 0) shellMaxInput = w := by
        have hpos : 0 < s.argc := by
          rw [hargc, hargs]
          exact Nat.succ_pos _
        have hhead := congrArg (fun l => l.getD 0 []) hargs
        simpa [Parse.arguments, hpos] using hhead
      have hlit : ∀ lit ∈ commandWords, strEqAt s.buffer (s.argv 0) lit = strEq w lit :=
        fun lit hmem => strEqAt_eq hholds hstring (commandWords_string lit hmem)
      rw [hargs, List.length_cons] at hargc
      rw [if_neg (by omega), hchars, hlit (ascii "echo") (by simp [commandWords]),
        hlit (ascii "clear") (by simp [commandWords]), hlit (ascii "ls") (by simp [commandWords]),
        hlit (ascii "cat") (by simp [commandWords]), hlit (ascii "help") (by simp [commandWords])]

section Step

variable {a : Arrays} {s : State}

theorem Readline.Holds.next (buffer : Bytes) {stores : List Nat} (h : ∀ i ∈ stores, i < 256) :
    Readline.Holds ⟨buffer, 0, stores⟩ [] where
  len := rfl
  room := by decide
  chars := fun i hi => absurd hi (by simp)
  string := fun c hc => absurd hc (by simp)
  stores := h

theorem Arrays.Holds.endLine (h : a.Holds s) (K : Kernel) (fs : FssoFilesystem) :
    ∃ a', endLine K fs a = some a' ∧
      a'.Holds { s with
        con := prompt (runLine K fs s.clock (shellPutchar s.con newline) s.input).1
        input := []
        clock := (runLine K fs s.clock (shellPutchar s.con newline) s.input).2 } := by
  obtain ⟨con, line, argv, slots, shiftPressed, clock⟩ := a
  obtain ⟨con', input, shiftPressed', clock'⟩ := s
  obtain ⟨hcon, hline, hshift, hclock, hslots⟩ := h
  dsimp only at hcon hline hshift hclock hslots
  subst hcon hshift hclock
  have hstring := hline.string_of_end
  have hlen := hline.len
  have hroom := hline.room
  have hstores : ∀ i ∈ (line.store line.len 0).stores, i < 256 := by
    intro i hi
    rcases List.mem_append.mp hi with hold | hnew
    · exact hline.stores i hold
    · rw [List.mem_singleton.mp hnew]
      omega
  by_cases hnul : (line.store line.len 0).buffer 0 = 0
  · have hnone : input = [] := by
      cases input with
      | nil => rfl
      | cons c rest => exact absurd (hstring.head.symm.trans hnul) (hline.string c (by simp))
    subst hnone
    have hnext := Readline.Holds.next (line.store line.len 0).buffer hstores
    simp only [Shell.endLine, if_pos hnul]
    exact ⟨_, rfl, rfl, hnext, rfl, rfl, hslots⟩
  · obtain ⟨p, hparse, harguments, hin, hpslots, hfirst⟩ :=
      parseLoop_line hstring hline.string hroom argv
    have hrun := runParsed_eq K fs clock (shellPutchar con newline) harguments hfirst
    have hall : ∀ i ∈ (line.store line.len 0).stores ++ p.stores, i < 256 := by
      intro i hi
      rcases List.mem_append.mp hi with hold | hnew
      · exact hstores i hold
      · exact hin i hnew
    have hallSlots : ∀ i ∈ slots ++ p.slots, i < shellMaxArgs := by
      intro i hi
      rcases List.mem_append.mp hi with hold | hnew
      · exact hslots i hold
      · exact hpslots i hnew
    simp only [Shell.endLine, if_neg hnul, hparse, Option.map_some, hrun]
    exact ⟨_, rfl, rfl, Readline.Holds.next p.buffer hall, rfl, rfl, hallSlots⟩

/-- **Step lemma.** -/
theorem Arrays.Holds.key (h : a.Holds s) (K : Kernel) (fs : FssoFilesystem) (scancode : UInt8) :
    ∃ a', arraysKey K fs a scancode = some a' ∧ a'.Holds (pressKey K fs s scancode) := by
  obtain ⟨con, line, argv, slots, shiftPressed, clock⟩ := a
  obtain ⟨con', input, shiftPressed', clock'⟩ := s
  obtain ⟨hcon, hline, hshift, hclock, hslots⟩ := h
  dsimp only at hcon hline hshift hclock hslots
  subst hcon hshift hclock
  have hlen := hline.len
  have hkey : (readlineKey 256 line (readKey shiftPressed scancode).1).Holds
      (editKey input (readKey shiftPressed scancode).1) := hline.key _
  simp only [arraysKey, pressKey]
  generalize (readKey shiftPressed scancode).1 = c at hkey ⊢
  generalize (readKey shiftPressed scancode).2 = flag
  rw [readlineKey, editKey] at hkey
  by_cases hzero : c = 0
  · rw [if_pos hzero, if_pos hzero]
    exact ⟨_, rfl, rfl, hline, rfl, rfl, hslots⟩
  · rw [if_neg hzero, if_neg hzero] at hkey
    rw [if_neg hzero, if_neg hzero]
    by_cases hend : c = newline
    · have hshifted : Arrays.Holds ⟨con, line, argv, slots, flag, clock⟩
          ⟨con, input, flag, clock⟩ :=
        ⟨rfl, hline, rfl, rfl, hslots⟩
      rw [if_pos hend, if_pos hend]
      exact hshifted.endLine K fs
    · rw [if_neg hend, if_neg hend]
      by_cases hback : c = backspace
      · rw [if_pos hback, if_pos hback] at hkey
        rw [if_pos hback, if_pos hback, hlen]
        by_cases hpos : input.length > 0
        · rw [if_pos (by omega), hlen] at hkey
          rw [if_pos hpos, if_pos hpos]
          exact ⟨_, rfl, rfl, hkey, rfl, rfl, hslots⟩
        · rw [if_neg hpos, if_neg hpos]
          exact ⟨_, rfl, rfl, hline, rfl, rfl, hslots⟩
      · rw [if_neg hback, if_neg hback] at hkey
        rw [if_neg hback, if_neg hback, hlen]
        by_cases hroom : input.length < shellMaxInput - 1
        · have hroom' : line.len < 256 - 1 := by
            rw [hlen]
            exact hroom
          rw [if_pos hroom', if_pos hroom, hlen] at hkey
          rw [if_pos hroom, if_pos hroom]
          exact ⟨_, rfl, rfl, hkey, rfl, rfl, hslots⟩
        · rw [if_neg hroom, if_neg hroom]
          exact ⟨_, rfl, rfl, hline, rfl, rfl, hslots⟩

/-- **Run lemma.** -/
theorem Arrays.Holds.keys (h : a.Holds s) (K : Kernel) (fs : FssoFilesystem)
    (keys : List UInt8) :
    ∃ a', keys.foldlM (arraysKey K fs) a = some a' ∧
      a'.Holds (keys.foldl (pressKey K fs) s) := by
  induction keys generalizing a s with
  | nil => exact ⟨a, rfl, h⟩
  | cons scancode rest ih =>
      obtain ⟨a', hkey, hholds⟩ := h.key K fs scancode
      obtain ⟨a'', hrest, hholds'⟩ := ih hholds
      refine ⟨a'', ?_, hholds'⟩
      rw [List.foldlM_cons, hkey]
      exact hrest

end Step

/-- **The arrays do their work.**  Whatever they held before, a session on the arrays
never stops, stores inside them only, and shows what the shell on lists shows. -/
theorem arraysRun_holds (K : Kernel) (fs : FssoFilesystem) (t : Nat) (con : Console)
    (input : Bytes) (argv : Nat → Nat) (keys : List UInt8) :
    ∃ a, arraysRun K fs t con input argv keys = some a ∧
      a.con = (shellRun K fs t con keys).con ∧ a.clock = (shellRun K fs t con keys).clock ∧
      (∀ i ∈ a.line.stores, i < shellMaxInput) ∧ (∀ i ∈ a.slots, i < shellMaxArgs) := by
  have hstart : Arrays.Holds ⟨prompt con, ⟨input, 0, []⟩, argv, [], false, t⟩
      ⟨prompt con, [], false, t⟩ :=
    ⟨rfl, Readline.Holds.of_empty input, rfl, rfl, fun i hi => absurd hi (by simp)⟩
  obtain ⟨a, hrun, hholds⟩ := hstart.keys K fs keys
  exact ⟨a, hrun, hholds.con, hholds.clock, hholds.line.stores, hholds.slots⟩

end Shell
