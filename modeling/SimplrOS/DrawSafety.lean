import SimplrOS.Shell

/-!
# The drawing path stays inside the framebuffer

The cursor never gets right of column 80, and it gets left of column 0 only by
backspaces that follow a wrapped line: it is never further left than the line typed
is short of 255 characters, and then there is a line of text above it.  Whatever the
keys and the disk, every cell is therefore placed, and a step of the shell can leave
the framebuffer only downwards, by a glyph the font does not have, or by blackening
768 lines of a lower screen.
-/

namespace Shell

open ByteStore Fsso Ahci

/-! ## The console -/

/-- Where the cursor is, and that everything drawn was placed. -/
structure Console.Ok (con : Console) : Prop where
  left : -255 ≤ con.cursorX
  right : con.cursorX ≤ 80
  top : 0 ≤ con.cursorY
  under : 0 ≤ con.cursorX ∨ 10 ≤ con.cursorY
  placed : ∀ act ∈ con.acts, act.Placed

section Console

variable {con : Console}

/-- The cell at the cursor may be drawn. -/
theorem Console.Ok.cell (h : con.Ok) : Placed (con.cursorX * 9) con.cursorY where
  right := by
    have := h.right
    omega
  top := h.top
  left := by
    have := h.left
    have := h.under
    omega

/-- One more step that may be drawn. -/
theorem Console.Ok.placed_draw (h : con.Ok) {act : Act} (hact : act.Placed) :
    ∀ act' ∈ (con.draw act).acts, act'.Placed :=
  List.forall_mem_append.mpr ⟨h.placed, List.forall_mem_singleton.mpr hact⟩

/-- A newline. -/
theorem Console.Ok.newline (h : con.Ok) {acts : List Act} (hacts : ∀ act ∈ acts, act.Placed) :
    Console.Ok { cursorX := 0, cursorY := con.cursorY + 10, acts := acts } where
  left := (by decide : (-255 : Int) ≤ 0)
  right := (by decide : (0 : Int) ≤ 80)
  top := Int.le_trans h.top (Int.le_add_of_nonneg_right (by decide))
  under := Or.inl (Int.le_refl 0)
  placed := hacts

/-- Putting a character keeps the cursor in its place. -/
theorem shellPutchar_ok (h : con.Ok) (c : UInt8) : (shellPutchar con c).Ok := by
  have hcell : (Act.char (con.cursorX * 9) con.cursorY c white).Placed := h.cell
  have hdrawn := h.placed_draw hcell
  unfold shellPutchar
  split
  · exact h.newline h.placed
  · dsimp only
    split
    · exact h.newline hdrawn
    · rename_i hwrap
      have hleft := h.left
      have hunder := h.under
      refine ⟨?_, ?_, h.top, ?_, hdrawn⟩
      · show -255 ≤ con.cursorX + 1
        omega
      · exact Int.not_lt.mp hwrap
      · show 0 ≤ con.cursorX + 1 ∨ 10 ≤ con.cursorY
        omega

/-- A character other than a newline moves the cursor by one or to the next line. -/
theorem shellPutchar_cursor (con : Console) {c : UInt8} (hc : c ≠ newline) :
    ((shellPutchar con c).cursorX = con.cursorX + 1 ∧
        (shellPutchar con c).cursorY = con.cursorY) ∨
      ((shellPutchar con c).cursorX = 0 ∧
        (shellPutchar con c).cursorY = con.cursorY + 10) := by
  unfold shellPutchar
  rw [if_neg hc]
  dsimp only
  split
  · exact Or.inr ⟨rfl, rfl⟩
  · exact Or.inl ⟨rfl, rfl⟩

/-- A text. -/
theorem shellPrint_ok (h : con.Ok) (str : List UInt8) : (shellPrint con str).Ok :=
  List.foldlRecOn str shellPutchar h fun _ hcon c _ => shellPutchar_ok hcon c

end Console

/-! ## The commands -/

section Commands

variable {con : Console}

theorem echoArgs_ok (h : con.Ok) (args : List (List UInt8)) : (echoArgs con args).Ok := by
  induction args generalizing con with
  | nil => exact h
  | cons arg rest ih =>
      have hprinted := shellPrint_ok h arg
      cases rest with
      | nil => exact hprinted
      | cons next rest => exact ih (shellPutchar_ok hprinted space)

/-- `echo`. -/
theorem cmdEcho_ok (h : con.Ok) (argv : List (List UInt8)) : (cmdEcho con argv).Ok :=
  shellPutchar_ok (echoArgs_ok h argv.tail) newline

/-- `clear`. -/
theorem cmdClear_ok (h : con.Ok) (pps : UInt32) : (cmdClear pps con).Ok where
  left := (by decide : (-255 : Int) ≤ 0)
  right := (by decide : (0 : Int) ≤ 80)
  top := Int.le_refl 0
  under := Or.inl (Int.le_refl 0)
  placed := by
    have hact : (Act.blacken (768 * pps)).Placed := trivial
    exact h.placed_draw hact

/-- The entries of a block. -/
theorem lsEntries_ok (h : con.Ok) (buffer : Bytes) : (lsEntries con buffer).Ok := by
  apply List.foldlRecOn _ _ h
  intro con hcon j _
  split
  · exact hcon
  · exact shellPutchar_ok (shellPrint_ok hcon _) newline

/-- Whatever the directory holds. -/
theorem lsBlocks_ok (dv : Drive) (ptrs : List UInt32) (t : Nat) (buffer : Bytes) (h : con.Ok) :
    (lsBlocks dv ptrs t buffer con).1.Ok := by
  induction ptrs generalizing t buffer con with
  | nil => exact h
  | cons b rest ih =>
      unfold lsBlocks
      split
      · exact h
      · exact ih _ _ (lsEntries_ok h _)

/-- `ls`. -/
theorem cmdLs_ok (h : con.Ok) (dv : Drive) (fs : FssoFilesystem) (t : Nat) :
    (cmdLs dv fs t con).1.Ok :=
  lsBlocks_ok dv _ _ _ h

/-- Whatever the file holds. -/
theorem cmdCat_ok (h : con.Ok) (K : Kernel) (fs : FssoFilesystem) (t : Nat)
    (argv : List (List UInt8)) : (cmdCat K fs t con argv).1.Ok := by
  unfold cmdCat
  split
  · rename_i name _
    dsimp only
    split
    · exact shellPutchar_ok (shellPrint_ok (shellPrint_ok h _) name) newline
    · split
      · exact shellPrint_ok h _
      · exact shellPutchar_ok (shellPrint_ok h _) newline
  · exact shellPrint_ok h _

/-- `help`. -/
theorem cmdHelp_ok (h : con.Ok) : (cmdHelp con).Ok :=
  List.foldlRecOn helpText _ h fun _ hcon line _ => shellPrint_ok hcon (ascii line)

/-- Any line. -/
theorem runLine_ok (h : con.Ok) (K : Kernel) (fs : FssoFilesystem) (t : Nat)
    (input : List UInt8) : (runLine K fs t con input).1.Ok := by
  unfold runLine
  split
  · exact h
  · rename_i command _ _
    split
    · exact cmdEcho_ok h _
    split
    · exact cmdClear_ok h _
    split
    · exact cmdLs_ok h _ fs t
    split
    · exact cmdCat_ok h K fs t _
    split
    · exact cmdHelp_ok h
    · exact shellPutchar_ok (shellPrint_ok (shellPrint_ok h _) command) newline

end Commands

/-! ## The loop -/

/-- While a line is typed the cursor is at most as far left as backspaces can take
it, and on the first line of the screen it is right of what has been typed. -/
structure State.Reading (s : State) : Prop where
  ok : s.con.Ok
  short : s.input.length ≤ 255
  reach : (s.input.length : Int) - 255 ≤ s.con.cursorX
  line : (s.input.length : Int) ≤ s.con.cursorX ∨ 10 ≤ s.con.cursorY

/-- With nothing typed, any cursor will do. -/
theorem Console.Ok.reading {con : Console} (h : con.Ok) (shiftPressed : Bool) (clock : Nat) :
    State.Reading ⟨prompt con, [], shiftPressed, clock⟩ where
  ok := shellPrint_ok h _
  short := Nat.zero_le _
  reach := (shellPrint_ok h _).left
  line := (shellPrint_ok h _).under

section Reading

variable {s : State}

/-- A character is taken back. -/
theorem State.Reading.backspace (h : s.Reading) (hlen : 0 < s.input.length) :
    State.Reading { s with con := shellBackspace s.con, input := s.input.dropLast } := by
  have hlength : s.input.dropLast.length = s.input.length - 1 := List.length_dropLast
  have hreach := h.reach
  have hright := h.ok.right
  have hline := h.line
  have hshort := h.short
  have hcell : (Act.erase ((s.con.cursorX - 1) * 9) s.con.cursorY).Placed := by
    refine ⟨by omega, h.ok.top, ?_⟩
    omega
  refine ⟨⟨?_, ?_, h.ok.top, ?_, ?_⟩, ?_, ?_, ?_⟩
  · show -255 ≤ s.con.cursorX - 1
    omega
  · show s.con.cursorX - 1 ≤ 80
    omega
  · show 0 ≤ s.con.cursorX - 1 ∨ 10 ≤ s.con.cursorY
    omega
  · exact h.ok.placed_draw hcell
  · show s.input.dropLast.length ≤ 255
    omega
  · show (s.input.dropLast.length : Int) - 255 ≤ s.con.cursorX - 1
    omega
  · show (s.input.dropLast.length : Int) ≤ s.con.cursorX - 1 ∨ 10 ≤ s.con.cursorY
    omega

/-- A character is typed. -/
theorem State.Reading.type (h : s.Reading) {c : UInt8} (hc : c ≠ newline)
    (hlen : s.input.length < shellMaxInput - 1) :
    State.Reading { s with con := shellPutchar s.con c, input := s.input ++ [c] } := by
  have hlength : (s.input ++ [c]).length = s.input.length + 1 := List.length_append
  have hreach := h.reach
  have hline := h.line
  have htop := h.ok.top
  have hmax : shellMaxInput - 1 = 255 := rfl
  have hcursor := shellPutchar_cursor s.con hc
  refine ⟨shellPutchar_ok h.ok c, ?_, ?_, ?_⟩
  · show (s.input ++ [c]).length ≤ 255
    omega
  · -- a wrap puts the cursor in column 0, right of every reach
    show ((s.input ++ [c]).length : Int) - 255 ≤ (shellPutchar s.con c).cursorX
    omega
  · show ((s.input ++ [c]).length : Int) ≤ (shellPutchar s.con c).cursorX ∨
      10 ≤ (shellPutchar s.con c).cursorY
    omega

/-- **Step lemma.** -/
theorem State.Reading.pressKey (h : s.Reading) (K : Kernel) (fs : FssoFilesystem)
    (scancode : UInt8) : (pressKey K fs s scancode).Reading := by
  unfold Shell.pressKey
  generalize readKey s.shiftPressed scancode = key
  obtain ⟨c, shiftPressed⟩ := key
  have hs : State.Reading { s with shiftPressed := shiftPressed } :=
    ⟨h.ok, h.short, h.reach, h.line⟩
  dsimp only
  split
  · exact hs
  split
  · exact (runLine_ok (shellPutchar_ok h.ok newline) K fs _ _).reading _ _
  split
  · split
    · rename_i hlen
      exact hs.backspace hlen
    · exact hs
  split
  · rename_i hnewline _ hlen
    exact hs.type hnewline hlen
  · exact hs

/-- **Run lemma.** -/
theorem shellRun_reading {con : Console} (h : con.Ok) (K : Kernel) (fs : FssoFilesystem) (t : Nat)
    (keys : List UInt8) : (shellRun K fs t con keys).Reading :=
  List.foldlRecOn keys _ (h.reading false t) fun _ hs scancode _ => hs.pressKey K fs scancode

end Reading

/-! ## The whole kernel -/

section Kernel

variable (K : Kernel)

/-- Every step of the shell is drawn where it may be. -/
theorem shellActs_placed (keys : List UInt8) : ∀ act ∈ shellActs K keys, act.Placed := by
  have hstart : Console.Ok ⟨0, 40, []⟩ :=
    ⟨by decide, by decide, by decide, Or.inl (Int.le_refl 0), fun _ hmem =>
      absurd hmem List.not_mem_nil⟩
  unfold shellActs
  split
  · exact (shellRun_reading hstart K _ _ keys).ok.placed
  · exact fun _ hmem => absurd hmem List.not_mem_nil

variable {K}

/-- Inside the framebuffer without any condition. -/
def Act.Inside (K : Kernel) (act : Act) : Prop := act.Placed ∧ act.Fits K.stray K.screen

/-- A short ASCII text near the top of the screen. -/
theorem drawString_inside (hheight : 48 ≤ K.screen.height) {y : Int} {str : List UInt8}
    (color : UInt32) (htop : 0 ≤ y) (hy : y ≤ 20) (hlength : str.length ≤ 10)
    (hascii : ∀ c ∈ str, c < 128) : ∀ act ∈ drawString 0 y str color, act.Inside K := by
  intro act hmem
  obtain ⟨i, hi, rfl⟩ := List.mem_mapIdx.mp hmem
  have hrows : 48 ≤ K.screen.height.toNat := hheight
  refine ⟨⟨?_, htop, Or.inl ?_⟩, hascii _ (List.getElem_mem hi), fun row hrow _ => Or.inr ?_⟩
  · omega
  · omega
  · unfold Geometry.rowLimit
    rw [if_neg (by omega)]
    omega

/-- The initial fill stops at the product it is given. -/
theorem blacken_inside : (Act.blacken (K.screen.height * K.screen.pps)).Inside K := by
  have hmod : (K.screen.height * K.screen.pps).toNat ≤ K.screen.size := by
    rw [UInt32.toNat_mul]
    exact Nat.mod_le _ _
  exact ⟨trivial, hmod⟩

/-- What is drawn before the shell is entered needs no condition. -/
theorem initialDrawing_inside (hheight : 48 ≤ K.screen.height) :
    ∀ act ∈ (initialDrawing K).1, act.Inside K := by
  have hname : ∀ act ∈ drawString 0 0 (ascii "SimplrOS") white, act.Inside K :=
    drawString_inside hheight white (by decide) (by decide) (by decide) (by simp [ascii])
  have hstart : ∀ act ∈ .blacken (K.screen.height * K.screen.pps) ::
      drawString 0 0 (ascii "SimplrOS") white, act.Inside K :=
    List.forall_mem_cons.mpr ⟨blacken_inside, hname⟩
  unfold initialDrawing
  split
  · have hahci : ∀ act ∈ drawString 0 10 (ascii "AHCI: OK") green, act.Inside K :=
      drawString_inside hheight green (by decide) (by decide) (by decide) (by simp [ascii])
    have hbefore := List.forall_mem_append.mpr ⟨hstart, hahci⟩
    dsimp only
    split
    · have hfsso : ∀ act ∈ drawString 0 20 (ascii "FSSO: OK") green, act.Inside K :=
        drawString_inside hheight green (by decide) (by decide) (by decide) (by simp [ascii])
      exact List.forall_mem_append.mpr ⟨hbefore, hfsso⟩
    · have hfsso : ∀ act ∈ drawString 0 20 (ascii "FSSO: FAIL") red, act.Inside K :=
        drawString_inside hheight red (by decide) (by decide) (by decide) (by simp [ascii])
      exact List.forall_mem_append.mpr ⟨hbefore, hfsso⟩
  · have hahci : ∀ act ∈ drawString 0 10 (ascii "AHCI: FAIL") red, act.Inside K :=
      drawString_inside hheight red (by decide) (by decide) (by decide) (by simp [ascii])
    exact List.forall_mem_append.mpr ⟨hstart, hahci⟩

end Kernel

/-- Every access of the run on the scancodes `keys` is in bounds. -/
def DrawsInBounds (K : Kernel) (keys : List UInt8) : Prop :=
  ∀ act ∈ kernelMain K keys, ∀ access ∈ act.accesses K.stray K.screen, access.InBounds K.screen

/-- **The drawing path.**  On every framebuffer of at least 736 by 48 pixels, for
every disk and all scancodes: if each drawing step of the shell fits, every access
of the whole run is in bounds.  A run that stays near the screen has no other way to
stay inside. -/
theorem kernelMain_inBounds {K : Kernel} {keys : List UInt8} (hpps : 736 ≤ K.screen.pps)
    (hheight : 48 ≤ K.screen.height) :
    ((∀ act ∈ shellActs K keys, act.Fits K.stray K.screen) → DrawsInBounds K keys) ∧
    ((∀ act ∈ shellActs K keys, act.Near K.screen) → DrawsInBounds K keys →
      ∀ act ∈ shellActs K keys, act.Fits K.stray K.screen) := by
  constructor
  · intro hfits act hmem
    rcases List.mem_append.mp hmem with hinitial | hshell
    · obtain ⟨hplaced, hfit⟩ := initialDrawing_inside hheight act hinitial
      exact hfit.inBounds hplaced hpps
    · exact (hfits act hshell).inBounds (shellActs_placed K keys act hshell) hpps
  · intro hnear hdraws act hshell
    exact Act.fits_of_inBounds (shellActs_placed K keys act hshell) hpps (hnear act hshell)
      (hdraws act (List.mem_append_right _ hshell))

/-- A kernel with a disk on port 0 that holds a superblock and zeros. -/
def sampleKernel (height : UInt32) : Kernel where
  screen := ⟨height, 736⟩
  hba := some ⟨1, fun _ => 0x113, fun _ => sataSigAta⟩
  drive := ⟨zeroMemory, fun i => [0x31, 0x56, 0x5F, 0x4F, 0x53, 0x53, 0x46].getD i 0,
    fun _ => true⟩
  staleFs := ⟨superblockAt (fun _ => 0) 0, 0⟩
  fileBuf := fun _ _ => 0
  stray := fun _ _ => 0

/-- Typing `hix`, a backspace and Enter on a screen of 100 lines. -/
theorem kernelMain_inBounds_hi :
    DrawsInBounds (sampleKernel 100) [0x23, 0x17, 0x2D, 0x0E, 0x1C] :=
  (kernelMain_inBounds (by decide) (by decide)).1 (by decide +kernel)

/-- One Enter on the lowest screen there may be: the second prompt is below it. -/
theorem secondPrompt_outOfBounds :
    736 ≤ (sampleKernel 48).screen.pps ∧ 48 ≤ (sampleKernel 48).screen.height ∧
      ¬ DrawsInBounds (sampleKernel 48) [0x1C] := by
  have hdrawn : Act.char 0 50 83 white ∈ kernelMain (sampleKernel 48) [0x1C] := by
    decide +kernel
  have hstored : Access.pixel (pixelIndex 736 2 50) white ∈
      (Act.char 0 50 83 white).accesses (sampleKernel 48).stray (sampleKernel 48).screen := by
    decide +kernel
  have hbelow : (sampleKernel 48).screen.size ≤ (pixelIndex 736 2 50).toNat := by decide +kernel
  refine ⟨by decide, by decide, fun hall => ?_⟩
  exact Nat.not_lt.mpr hbelow (hall _ hdrawn _ hstored)

end Shell
