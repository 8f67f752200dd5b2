import SimplrOS.ConsoleEvents
import SimplrOS.StoredFiles

/-!
# The shell over a list of files

What the shell is for: a line editor whose finished lines are answered from the
files of the disk.  `respond` says what a line prints and `session` what a whole
session does to the screen, in terms of the keys and the files only; neither knows
inodes, blocks, buffers or the disk clock.

`kernelMain_session` connects this to the kernel: on every image that `mkfsso` can
have built with at most 106 calls, after any scancodes, the kernel has drawn what
`transcript` says.
-/

namespace Shell

open Ahci ByteStore Fsso Words

/-! ## What a session does -/

/-- What `cat` prints; the buffer has 4096 bytes. -/
def catReply (files : List StoredFile) : List (List UInt8) → List UInt8
  | [] => ascii "Usage: cat <filename>\n"
  | name :: _ =>
      match namedFile files name with
      | some f => f.content.take 4096 ++ [newline]
      | none => ascii "File not found: " ++ name ++ [newline]

/-- The answer to a line. -/
def respond (files : List StoredFile) (line : List UInt8) : List Event :=
  match (words space line).take shellMaxArgs with
  | [] => []
  | command :: args =>
      if command = ascii "echo" then putAll (joinWords args ++ [newline])
      else if command = ascii "clear" then [.clear]
      else if command = ascii "ls" then putAll (files.flatMap fun f => f.name ++ [newline])
      else if command = ascii "cat" then putAll (catReply files args)
      else if command = ascii "help" then putAll (helpText.flatMap ascii)
      else putAll (ascii "Unknown command: " ++ command ++ [newline])

/-- What a finished line does: the new row, the answer and the next prompt. -/
def answer (files : List StoredFile) (line : List UInt8) : List Event :=
  .put newline :: respond files line ++ putAll (ascii "SimplrOS> ")

/-- What happens from the point where `line` has been typed. -/
def session (files : List StoredFile) : List UInt8 → List UInt8 → List Event
  | _, [] => []
  | line, c :: keys =>
      if c = 0 then session files line keys
      else if c = newline then answer files line ++ session files [] keys
      else if c = backspace then
        if line = [] then session files line keys
        else .back :: session files line.dropLast keys
      else if line.length < shellMaxInput - 1 then .put c :: session files (line ++ [c]) keys
      else session files line keys

/-- What happens on the console from the first prompt on. -/
def transcript (files : List StoredFile) (scancodes : List UInt8) : List Event :=
  putAll (ascii "SimplrOS> ") ++ session files [] (readKeys false scancodes)

/-! ## The commands -/

section Served

variable {K : Kernel} {files : List StoredFile} {fs : FssoFilesystem} {t₀ : Nat}
  {fs₀ : FssoFilesystem}

/-- `cat` prints the file. -/
theorem catText_served (hserves : Serves K.drive.disk files) (hsound : K.drive.Sound)
    (hfs : fs = (fssoMount K.drive t₀ fs₀).out) (t : Nat) (command : List UInt8)
    (args : List (List UInt8)) : catText K fs t (command :: args) = catReply files args := by
  cases args with
  | nil => rfl
  | cons name rest =>
      subst hfs
      cases hnamed : namedFile files name with
      | none =>
          have hmissing := hserves.missing K.drive hsound rfl t₀ fs₀ t name 0 hnamed
          simp only [catText, catReply, hnamed]
          rw [if_pos (by rw [hmissing]; decide)]
      | some f =>
          obtain ⟨hfound, hread⟩ := hserves.found K.drive hsound rfl t₀ fs₀ t name 0 f hnamed
          simp only [catText, catReply, hnamed]
          rw [if_neg (by rw [hfound]; decide)]
          obtain ⟨hnonneg, hbytes⟩ := hread
            (fssoFindInDir K.drive t (fssoMount K.drive t₀ fs₀).out 0 name 0).clock (K.fileBuf t)
            4096
          rw [if_neg (by omega)]
          exact congrArg (· ++ [newline]) hbytes

/-- `ls` prints the names of the files. -/
theorem cmdLs_served (hserves : Serves K.drive.disk files) (hsound : K.drive.Sound)
    (htotal : 0 < fs.superblock.totalInodes)
    (hends : ∀ e ∈ dirEntries K.drive.disk 0, e.name.length ≤ 255) (t : Nat) (con : Console) :
    (cmdLs K.drive fs t con).1 =
      shellPrint con (files.flatMap fun f => f.name ++ [newline]) := by
  have hnames := cmdLsNames_sound hsound htotal hends t
  rw [cmdLs_eq, hnames, hserves.listed, foldl_printLine, List.flatMap_map]

/-- **A line.**  `shell_run` answers a line from the files. -/
theorem runLine_served (hserves : Serves K.drive.disk files) (hsound : K.drive.Sound)
    (hfs : fs = (fssoMount K.drive t₀ fs₀).out) (htotal : 0 < fs.superblock.totalInodes)
    (hends : ∀ e ∈ dirEntries K.drive.disk 0, e.name.length ≤ 255) (t : Nat) (con : Console)
    (line : List UInt8) :
    (runLine K fs t con line).1 = (respond files line).foldl (Event.apply K.screen.pps) con := by
  rw [runLine, respond, shellParse_eq]
  cases (words space line).take shellMaxArgs with
  | nil => rfl
  | cons command args =>
      simp only [strEq_iff]
      split
      · rw [putAll_apply, cmdEcho_eq, echoSent, echoArgsSent_eq]
        rfl
      · split
        · rfl
        · split
          · rw [putAll_apply]
            exact cmdLs_served hserves hsound htotal hends t con
          · split
            · rw [putAll_apply, cmdCat_eq, catText_served hserves hsound hfs]
            · split
              · rw [putAll_apply, ← foldl_shellPrint]
                rfl
              · rw [putAll_apply, shellPrint_append, shellPrint_append, shellPrint_singleton]

/-- **Run lemma.**  The session goes on from any state as the files say. -/
theorem pressKeys_served (hserves : Serves K.drive.disk files) (hsound : K.drive.Sound)
    (hfs : fs = (fssoMount K.drive t₀ fs₀).out) (htotal : 0 < fs.superblock.totalInodes)
    (hends : ∀ e ∈ dirEntries K.drive.disk 0, e.name.length ≤ 255) (scancodes : List UInt8)
    (s : State) :
    (scancodes.foldl (pressKey K fs) s).con =
      (session files s.input (readKeys s.shiftPressed scancodes)).foldl
        (Event.apply K.screen.pps) s.con := by
  induction scancodes generalizing s with
  | nil => rfl
  | cons scancode rest ih =>
      have hshift := pressKey_shift K fs s scancode
      rw [List.foldl_cons, ih, readKeys, session, hshift]
      simp only [pressKey]
      by_cases hzero : (readKey s.shiftPressed scancode).1 = 0
      · rw [if_pos hzero, if_pos hzero]
      · rw [if_neg hzero, if_neg hzero]
        by_cases hline : (readKey s.shiftPressed scancode).1 = newline
        · rw [if_pos hline, if_pos hline]
          simp only [answer, List.cons_append, List.foldl_cons, List.foldl_append, putAll_apply]
          rw [← runLine_served hserves hsound hfs htotal hends s.clock]
          rfl
        · rw [if_neg hline, if_neg hline]
          by_cases hback : (readKey s.shiftPressed scancode).1 = backspace
          · rw [if_pos hback, if_pos hback]
            by_cases hempty : s.input = []
            · rw [if_pos hempty, hempty]
              simp
            · rw [if_neg hempty, if_pos (List.length_pos_iff.mpr hempty)]
              rfl
          · rw [if_neg hback, if_neg hback]
            split <;> rfl

end Served

/-! ## The kernel -/

/-- The names on an image of a short run fit. -/
theorem names_short_of_reaches {calls : List AddCall} {disk : Bytes} (h : Reaches calls disk)
    (hlen : calls.length ≤ 106) : ∀ e ∈ dirEntries disk 0, e.name.length ≤ 255 :=
  NamesEnd.length_le (namesEnd_of_lists h.inv.layout (h.lists hlen))

/-- The kernel enters the shell, which does what the transcript says. -/
theorem shellActs_served {K : Kernel} {calls : List AddCall} (hahci : (ahciInit K.hba).1 = 0)
    (hsound : K.drive.Sound) (hreach : Reaches calls K.drive.disk) (hlen : calls.length ≤ 106)
    (scancodes : List UInt8) :
    shellActs K scancodes =
      ((transcript (filesOf calls) scancodes).foldl (Event.apply K.screen.pps)
        ⟨0, 40, []⟩).acts := by
  have hlayout := hreach.inv.layout
  obtain ⟨hmount, hinodes⟩ := fssoMount_sound hsound 0 K.staleFs hlayout.magic
  have htotal := hinodes.trans hlayout.totalInodes
  have hentered : (initialDrawing K).2 =
      some ((fssoMount K.drive 0 K.staleFs).out, (fssoMount K.drive 0 K.staleFs).clock) := by
    rw [initialDrawing, if_pos hahci]
    simp only [hmount, if_true]
  have hserved := pressKeys_served (hreach.serves hlen) hsound rfl (by rw [htotal]; decide)
    (names_short_of_reaches hreach hlen) scancodes
    ⟨prompt ⟨0, 40, []⟩, [], false, (fssoMount K.drive 0 K.staleFs).clock⟩
  rw [shellActs, hentered]
  dsimp only
  rw [shellRun, hserved, transcript, List.foldl_append, putAll_apply]
  rfl

/-- **The kernel as a shell over files.**  Whatever the keys, the kernel draws its
banner and then what the transcript of the session says. -/
theorem kernelMain_session {K : Kernel} {calls : List AddCall} (hahci : (ahciInit K.hba).1 = 0)
    (hsound : K.drive.Sound) (hreach : Reaches calls K.drive.disk) (hlen : calls.length ≤ 106)
    (scancodes : List UInt8) :
    kernelMain K scancodes = (initialDrawing K).1 ++
      ((transcript (filesOf calls) scancodes).foldl (Event.apply K.screen.pps)
        ⟨0, 40, []⟩).acts := by
  rw [kernelMain, shellActs_served hahci hsound hreach hlen]

/-- A kernel with one disk that delivers the given bytes. -/
def diskKernel (disk : Bytes) : Kernel :=
  { plainKernel disk with hba := some ⟨1, fun _ => 0x113, fun _ => sataSigAta⟩ }

/-- `ls` on a disk with one file. -/
theorem kernelMain_session_ls :
    kernelMain (diskKernel helloDisk) [0x26, 0x1F, 0x1C] =
      (initialDrawing (diskKernel helloDisk)).1 ++
        ((transcript (filesOf [helloCall]) [0x26, 0x1F, 0x1C]).foldl (Event.apply 1024)
          ⟨0, 40, []⟩).acts :=
  kernelMain_session (K := diskKernel helloDisk) (by decide) (fun _ => rfl)
    (Reaches.call Reaches.format helloCall_run) (by decide) [0x26, 0x1F, 0x1C]

end Shell
