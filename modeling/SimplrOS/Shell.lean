import SimplrOS.Ahci
import SimplrOS.FssoReader
import SimplrOS.Screen

/-!
# The shell and `kernel_main`

`shell.c` and the drawing part of `kernel.c`.  The shell waits for one scancode
after the other inside `shell_readline`; between two of them its state is the
console, the line typed so far, the shift key and the number of disk reads issued.
A command is run when the line is ended, and the next prompt is printed after it.
-/

namespace Shell

open ByteStore Fsso Ahci

/-- What the kernel finds: the framebuffer, the disk controller, the drive, and the
bytes it reads without having written them. -/
structure Kernel where
  screen : Geometry
  hba : Option HbaRegs
  drive : Drive
  staleFs : FssoFilesystem
  /-- `file_buf` of a `cat` begun at a given clock -/
  fileBuf : Nat → Bytes
  /-- what lies behind the font -/
  stray : UInt8 → Nat → UInt8

/-! ## The keyboard -/

/-- `scancode_map`, with 0 where the table has no entry. -/
def scancodeMap : List UInt8 :=
  [0, 0] ++ ascii "1234567890-=" ++ [backspace, 0] ++ ascii "qwertyuiop[]" ++ [newline, 0] ++
    ascii "asdfghjkl;" ++ [39, 96, 0] ++ ascii "\\zxcvbnm,./" ++ [0] ++ ascii "*" ++ [0] ++
    ascii " "

/-- `scancode_map_shift`. -/
def scancodeMapShift : List UInt8 :=
  [0, 0] ++ ascii "!@#$%^&*()_+" ++ [backspace, 0] ++ ascii "QWERTYUIOP" ++
    [123, 125, newline, 0] ++ ascii "ASDFGHJKL:" ++ [34, 126, 0] ++ ascii "|ZXCVBNM<>?" ++ [0] ++
    ascii "*" ++ [0] ++ ascii " "

/-- `read_key` for a given scancode: the key, 0 if there is none, and the new
`shift_pressed`. -/
def readKey (shiftPressed : Bool) (scancode : UInt8) : UInt8 × Bool :=
  if scancode = 0x2A ∨ scancode = 0x36 then (0, true)
  else if scancode = 0xAA ∨ scancode = 0xB6 then (0, false)
  else if scancode &&& 0x80 ≠ 0 then (0, shiftPressed)
  else if shiftPressed then (scancodeMapShift.getD scancode.toNat 0, shiftPressed)
  else (scancodeMap.getD scancode.toNat 0, shiftPressed)

/-! ## The commands -/

/-- `SHELL_MAX_INPUT`. -/
abbrev shellMaxInput : Nat := 256

/-- `SHELL_MAX_ARGS`. -/
abbrev shellMaxArgs : Nat := 16

/-- `shell_parse`: at most `maxArgs` tokens, separated by spaces. -/
def shellParse (input : List UInt8) : Nat → List (List UInt8)
  | 0 => []
  | maxArgs+1 =>
      match input.dropWhile (· == space) with
      | [] => []
      | p => p.takeWhile (· != space) :: shellParse ((p.dropWhile (· != space)).drop 1) maxArgs

/-- `str_eq`; the end of a list is the terminating NUL. -/
def strEq : List UInt8 → List UInt8 → Bool
  | [], [] => true
  | a :: as, b :: bs => a == b && strEq as bs
  | _, _ => false

/-- The loop of `cmd_echo` over the arguments from `argv[1]` on. -/
def echoArgs (con : Console) : List (List UInt8) → Console
  | [] => con
  | [arg] => shellPrint con arg
  | arg :: rest => echoArgs (shellPutchar (shellPrint con arg) space) rest

/-- `cmd_echo`: the words after the first with a space between two of them, and a newline. -/
def cmdEcho (con : Console) (argv : List (List UInt8)) : Console :=
  shellPutchar (echoArgs con argv.tail) newline

/-- `cmd_clear` blackens 768 lines. -/
def cmdClear (pps : UInt32) (con : Console) : Console :=
  { con.draw (.blacken (768 * pps)) with cursorX := 0, cursorY := 0 }

/-- The characters `shell_print` reads at `a`.  Its index is an `int`, so that there
is no run with `2^31` of them. -/
def cString (mem : Bytes) (a : Nat) : Nat → List UInt8
  | 0 => []
  | k+1 => if mem a = 0 then [] else mem a :: cString mem (a + 1) k

/-- The slot loop of `cmd_ls`. -/
def lsEntries (con : Console) (buffer : Bytes) : Console :=
  (List.range entriesPerBlock).foldl (fun con j =>
    if word32 buffer (entryAddr 0 j) = 0 then con
    else shellPutchar (shellPrint con (cString buffer (entryAddr 0 j + 4) (2 ^ 31))) newline) con

/-- The block loop of `cmd_ls` over the remaining direct pointers. -/
def lsBlocks (dv : Drive) : List UInt32 → Nat → Bytes → Console → Console × Nat
  | [], t, _, con => (con, t)
  | b :: rest, t, buffer, con =>
      if b = 0 then (con, t)
      else
        let buffer := readBlock dv t b buffer
        lsBlocks dv rest (t + 1) buffer (lsEntries con buffer)

/-- `cmd_ls` drops the result of `fsso_read_inode`. -/
def cmdLs (dv : Drive) (fs : FssoFilesystem) (t : Nat) (con : Console) : Console × Nat :=
  let root := fssoReadInode dv t fs 0 dv.staleInode
  lsBlocks dv root.out.direct.toList root.clock (dv.stack root.clock) con

/-- `cmd_cat`: every byte that `fsso_read_file` counts, NULs too, or the message of the check
that failed. -/
def cmdCat (K : Kernel) (fs : FssoFilesystem) (t : Nat) (con : Console) (argv : List (List UInt8)) :
    Console × Nat :=
  match argv with
  | _ :: name :: _ =>
      let found := fssoFindInDir K.drive t fs 0 name 0
      if found.ret ≠ 0 then
        (shellPutchar (shellPrint (shellPrint con (ascii "File not found: ")) name) newline,
          found.clock)
      else
        let file := fssoReadFile K.drive found.clock fs found.out (K.fileBuf t) 4096
        if file.ret < 0 then (shellPrint con (ascii "Error reading file\n"), file.clock)
        else
          let text := (List.range file.ret.toNat).map file.out
          (shellPutchar (shellPrint con text) newline, file.clock)
  | _ => (shellPrint con (ascii "Usage: cat <filename>\n"), t)

/-- The lines that `cmd_help` prints. -/
def helpText : List String :=
  ["SimplrOS commands:\n", "  echo <text>     - print text\n", "  clear           - clear screen\n",
    "  ls              - list files\n", "  cat <file>      - read file\n",
    "  help            - this message\n"]

/-- `cmd_help`. -/
def cmdHelp (con : Console) : Console :=
  helpText.foldl (fun con line => shellPrint con (ascii line)) con

/-- What `shell_run` does with a line. -/
def runLine (K : Kernel) (fs : FssoFilesystem) (t : Nat) (con : Console) (input : List UInt8) :
    Console × Nat :=
  match shellParse input shellMaxArgs with
  | [] => (con, t)
  | argv@(command :: _) =>
      if strEq command (ascii "echo") then (cmdEcho con argv, t)
      else if strEq command (ascii "clear") then (cmdClear K.screen.pps con, t)
      else if strEq command (ascii "ls") then cmdLs K.drive fs t con
      else if strEq command (ascii "cat") then cmdCat K fs t con argv
      else if strEq command (ascii "help") then (cmdHelp con, t)
      else
        (shellPutchar (shellPrint (shellPrint con (ascii "Unknown command: ")) command) newline, t)

/-! ## The loop -/

/-- The shell between two scancodes. -/
structure State where
  con : Console
  input : List UInt8
  shiftPressed : Bool
  clock : Nat

/-- The prompt that `shell_run` prints before each line. -/
def prompt (con : Console) : Console := shellPrint con (ascii "SimplrOS> ")

/-- One round of the loop of `shell_readline`; the end of a line goes on to the next
prompt. -/
def pressKey (K : Kernel) (fs : FssoFilesystem) (s : State) (scancode : UInt8) : State :=
  let (c, shiftPressed) := readKey s.shiftPressed scancode
  let s := { s with shiftPressed := shiftPressed }
  if c = 0 then s
  else if c = newline then
    let (con, clock) := runLine K fs s.clock (shellPutchar s.con newline) s.input
    { s with con := prompt con, input := [], clock := clock }
  else if c = backspace then
    if s.input.length > 0 then { s with con := shellBackspace s.con, input := s.input.dropLast }
    else s
  else if s.input.length < shellMaxInput - 1 then
    { s with con := shellPutchar s.con c, input := s.input ++ [c] }
  else s

/-- `shell_run` on the scancodes `keys`. -/
def shellRun (K : Kernel) (fs : FssoFilesystem) (t : Nat) (con : Console) (keys : List UInt8) :
    State :=
  keys.foldl (pressKey K fs) ⟨prompt con, [], false, t⟩

/-! ## `kernel_main` -/

/-- What is drawn before the shell is entered, and the mounted file system if it is. -/
def initialDrawing (K : Kernel) : List Act × Option (FssoFilesystem × Nat) :=
  let acts := .blacken (K.screen.height * K.screen.pps) :: drawString 0 0 (ascii "SimplrOS") white
  if (ahciInit K.hba).1 = 0 then
    let acts := acts ++ drawString 0 10 (ascii "AHCI: OK") green
    let mount := fssoMount K.drive 0 K.staleFs
    if mount.ret = 0 then
      (acts ++ drawString 0 20 (ascii "FSSO: OK") green, some (mount.out, mount.clock))
    else (acts ++ drawString 0 20 (ascii "FSSO: FAIL") red, none)
  else (acts ++ drawString 0 10 (ascii "AHCI: FAIL") red, none)

/-- The drawing steps of the shell on the scancodes `keys`. -/
def shellActs (K : Kernel) (keys : List UInt8) : List Act :=
  match (initialDrawing K).2 with
  | some (fs, t) => (shellRun K fs t ⟨0, 40, []⟩ keys).con.acts
  | none => []

/-- Every drawing step of the kernel on the scancodes `keys`, in order. -/
def kernelMain (K : Kernel) (keys : List UInt8) : List Act :=
  (initialDrawing K).1 ++ shellActs K keys

end Shell
