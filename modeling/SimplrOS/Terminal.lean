import SimplrOS.Conversation

/-!
# The screen as a text terminal

The drawing path puts pixels, and what it is for is text.  `Terminal` is a plain text
terminal with one character a cell, and `readCell` reads a cell of the framebuffer the
way a person does, by finding its glyph in the font.

`kernelMain_readable` is the round trip from the text to the pixels and back: whatever
the kernel has drawn, each cell reads as the character that the terminal has there.
The font carries it, since no two of its glyphs from `!` on are the same.  The
terminal must not take a character back at its left margin and must stay on the
screen.  `clear` blackens 768 lines, and what it leaves below them must not be written
over.
-/

namespace Shell

open Ahci ByteStore Fsso

/-! ## The terminal -/

/-- Characters by column and row. -/
abbrev Cells := Nat → Nat → Option UInt8

/-- The cell at `col`, `row` becomes `c`. -/
def Cells.place (cells : Cells) (col row : Nat) (c : Option UInt8) : Cells :=
  fun col' row' => if col' = col ∧ row' = row then c else cells col' row'

/-- The cursor and the cells. -/
structure Terminal where
  col : Nat
  row : Nat
  cells : Cells

/-- The cursor in the corner of an empty screen. -/
def Terminal.blank : Terminal := ⟨0, 0, fun _ _ => none⟩

/-- The cells below the 768 lines that `clear` blackens. -/
def Cells.cleared (cells : Cells) : Cells := fun col row =>
  if 10 * row < 768 then none else cells col row

/-- A row has 81 cells. -/
def Terminal.put (s : Terminal) (c : UInt8) : Terminal :=
  if c = newline then { s with col := 0, row := s.row + 1 }
  else
    { col := if 80 < s.col + 1 then 0 else s.col + 1
      row := if 80 < s.col + 1 then s.row + 1 else s.row
      cells := s.cells.place s.col s.row (some c) }

/-- What an event does to the terminal. -/
def Terminal.apply (s : Terminal) : Event → Terminal
  | .put c => s.put c
  | .back => { s with col := s.col - 1, cells := s.cells.place (s.col - 1) s.row none }
  | .clear => ⟨0, 0, s.cells.cleared⟩

/-- What the kernel can show on a screen of `height` lines. -/
def Terminal.Allows (height : Nat) (s : Terminal) : Event → Prop
  | .put c => c ≠ newline →
      10 * s.row + 8 ≤ height ∧ (768 ≤ 10 * s.row → s.cells s.col s.row = none)
  | .back => 0 < s.col ∧ 10 * s.row + 8 ≤ height
  | .clear => 768 ≤ height

instance (height : Nat) (s : Terminal) (e : Event) : Decidable (s.Allows height e) :=
  match e with
  | .put c => inferInstanceAs (Decidable (c ≠ newline →
      10 * s.row + 8 ≤ height ∧ (768 ≤ 10 * s.row → s.cells s.col s.row = none)))
  | .back => inferInstanceAs (Decidable (0 < s.col ∧ 10 * s.row + 8 ≤ height))
  | .clear => inferInstanceAs (Decidable (768 ≤ height))

/-- Every event of the list can be shown when its turn comes. -/
def Terminal.Fits (height : Nat) : Terminal → List Event → Prop
  | _, [] => True
  | s, e :: rest => s.Allows height e ∧ Fits height (s.apply e) rest

instance decidableFits (height : Nat) : ∀ s events, Decidable (Terminal.Fits height s events)
  | _, [] => inferInstanceAs (Decidable True)
  | s, e :: rest =>
      have := decidableFits height (s.apply e) rest
      inferInstanceAs (Decidable (s.Allows height e ∧ Terminal.Fits height (s.apply e) rest))

/-- The cells from the cursor on are blank, down to where `clear` reaches. -/
structure Terminal.Ordered (s : Terminal) : Prop where
  right : s.col ≤ 80
  ahead : ∀ col row, 10 * row < 768 → s.row < row ∨ (row = s.row ∧ s.col ≤ col) →
    s.cells col row = none

theorem Terminal.Ordered.blank : Terminal.blank.Ordered := ⟨Nat.zero_le 80, fun _ _ _ _ => rfl⟩

theorem Terminal.Ordered.apply {s : Terminal} (h : s.Ordered) {e : Event}
    (hback : e = .back → 0 < s.col) : (s.apply e).Ordered := by
  obtain ⟨hright, hahead⟩ := h
  cases e with
  | put c =>
      by_cases hline : c = newline
      · have hput : s.put c = { s with col := 0, row := s.row + 1 } := if_pos hline
        rw [Terminal.apply, hput]
        refine ⟨Nat.zero_le 80, fun col row hlow h => hahead col row hlow ?_⟩
        dsimp only at h
        omega
      · rw [Terminal.apply, Terminal.put, if_neg hline]
        refine ⟨by dsimp only; grind, fun col row hlow h => ?_⟩
        dsimp only [Cells.place] at h ⊢
        grind
  | back =>
      have hcol := hback rfl
      refine ⟨Nat.le_trans (Nat.sub_le s.col 1) hright, fun col row hlow h => ?_⟩
      dsimp only [Terminal.apply, Cells.place] at h ⊢
      grind
  | clear => exact ⟨Nat.zero_le 80, fun col row hlow _ => if_pos hlow⟩

/-! ## The grid holds the text -/

/-- At most one character has been drawn in the cell. -/
def Overlay.Holds (o : Overlay) : Option UInt8 → Prop
  | none => o = []
  | some c => ∃ color, color ≠ 0 ∧ o = [(c, color)]

/-- Each cell of the grid shows what the terminal has there. -/
def Grid.Holds (grid : Grid) (cells : Cells) : Prop :=
  ∀ col row, (grid (col * 9 : Nat) (row * 10 : Nat)).Holds (cells col row)

section Steps

variable {grid : Grid} {cells : Cells} {pps : UInt32} {x y : Int} {col row : Nat}

theorem place_same (cells : Cells) (col row : Nat) (c : Option UInt8) :
    cells.place col row c col row = c := if_pos ⟨rfl, rfl⟩

theorem place_other (cells : Cells) {col row col' row' : Nat} (c : Option UInt8)
    (h : ¬ (col' = col ∧ row' = row)) : cells.place col row c col' row' = cells col' row' :=
  if_neg h

/-- A character in a blank cell. -/
theorem Grid.Holds.char (h : grid.Holds cells) (hx : x = (col * 9 : Nat))
    (hy : y = (row * 10 : Nat)) (hblank : cells col row = none) (c : UInt8) {color : UInt32}
    (hcolor : color ≠ 0) :
    (grid.draw pps (.char x y c color)).Holds (cells.place col row (some c)) := by
  intro col' row'
  rw [Grid.draw_char]
  have hcell := h col' row'
  by_cases hhere : col' = col ∧ row' = row
  · obtain ⟨rfl, rfl⟩ := hhere
    rw [hblank] at hcell
    have hempty : grid (col' * 9 : Nat) (row' * 10 : Nat) = [] := hcell
    rw [if_pos ⟨hx.symm, hy.symm⟩, hempty, place_same]
    exact ⟨color, hcolor, rfl⟩
  · rw [if_neg (by omega), place_other cells _ hhere]
    exact hcell

theorem Grid.Holds.erase (h : grid.Holds cells) (hx : x = (col * 9 : Nat))
    (hy : y = (row * 10 : Nat)) :
    (grid.draw pps (.erase x y)).Holds (cells.place col row none) := by
  intro col' row'
  rw [Grid.draw_erase]
  by_cases hhere : col' = col ∧ row' = row
  · obtain ⟨rfl, rfl⟩ := hhere
    rw [if_pos ⟨hx.symm, hy.symm⟩, place_same]
    rfl
  · rw [if_neg (by omega), place_other cells _ hhere]
    exact h col' row'

theorem Grid.Holds.clear (h : grid.Holds cells) (hpps : 0 < pps.toNat)
    (hclear : 768 * pps.toNat < 4294967296) :
    (grid.draw pps (.blacken (768 * pps))).Holds cells.cleared := by
  intro col row
  have hcount : (768 * pps).toNat = 768 * pps.toNat := by
    rw [UInt32.toNat_mul]
    exact Nat.mod_eq_of_lt hclear
  rw [Grid.draw_blacken, hcount, Cells.cleared]
  have hline : ((row * 10 : Nat) : Int) * (pps.toNat : Int) < (768 * pps.toNat : Nat) ↔
      10 * row < 768 := by
    rw [Int.natCast_mul 768, Int.mul_lt_mul_right (by omega)]
    omega
  by_cases hrow : 10 * row < 768
  · rw [if_pos (hline.mpr hrow), if_pos hrow]
    rfl
  · rw [if_neg (mt hline.mp hrow), if_neg hrow]
    exact h col row

end Steps

/-- What has been drawn is on the screen and is what the terminal has. -/
structure Drawn (g : Geometry) (acts : List Act) (s : Terminal) : Prop where
  grid : (blankGrid.drawAll g.pps acts).Holds s.cells
  onScreen : ∀ act ∈ acts, act.OnScreen g
  ordered : s.Ordered

section Drawing

variable {g : Geometry} {acts : List Act} {s : Terminal} {x y : Int}

theorem drawAll_concat (pps : UInt32) (grid : Grid) (acts : List Act) (act : Act) :
    grid.drawAll pps (acts ++ [act]) = (grid.drawAll pps acts).draw pps act :=
  List.foldl_concat ..

theorem onScreen_concat {act : Act} (hacts : ∀ a ∈ acts, a.OnScreen g) (hact : act.OnScreen g) :
    ∀ a ∈ acts ++ [act], a.OnScreen g :=
  List.forall_mem_append.mpr ⟨hacts, List.forall_mem_singleton.mpr hact⟩

theorem Drawn.newLine (h : Drawn g acts s) : Drawn g acts (s.put newline) :=
  ⟨h.grid, h.onScreen, h.ordered.apply (e := .put newline) (by grind)⟩

theorem Drawn.char (h : Drawn g acts s) {c : UInt8} (hc : c ≠ newline)
    (hallows : s.Allows g.height.toNat (.put c)) (hx : x = (s.col * 9 : Nat))
    (hy : y = (s.row * 10 : Nat)) (color : UInt32) (hcolor : color ≠ 0) :
    Drawn g (acts ++ [.char x y c color]) (s.put c) := by
  obtain ⟨hroom, hlow⟩ := hallows hc
  have hon : Act.OnScreen g (.char x y c color) := ⟨by omega, by omega⟩
  have hahead := h.ordered.ahead s.col s.row
  have hblank : s.cells s.col s.row = none := by grind
  refine ⟨?_, onScreen_concat h.onScreen hon, h.ordered.apply (e := .put c) (by grind)⟩
  rw [drawAll_concat, Terminal.put, if_neg hc]
  exact h.grid.char hx hy hblank c hcolor

theorem Drawn.back (h : Drawn g acts s) (hallows : s.Allows g.height.toNat .back)
    (hx : x = ((s.col - 1) * 9 : Nat)) (hy : y = (s.row * 10 : Nat)) :
    Drawn g (acts ++ [.erase x y]) (s.apply .back) := by
  have hroom := hallows.2
  have hon : Act.OnScreen g (.erase x y) := ⟨by omega, by omega⟩
  refine ⟨?_, onScreen_concat h.onScreen hon, h.ordered.apply fun _ => hallows.1⟩
  rw [drawAll_concat]
  exact h.grid.erase hx hy

theorem Drawn.clear (h : Drawn g acts s) (hg : g.Regular)
    (hallows : s.Allows g.height.toNat .clear) :
    Drawn g (acts ++ [.blacken (768 * g.pps)]) (s.apply .clear) := by
  have hlow : 768 ≤ g.height.toNat := hallows
  have hwide := hg.wide
  have hcount : (768 * g.pps).toNat = 768 * g.pps.toNat := by
    rw [UInt32.toNat_mul]
    exact Nat.mod_eq_of_lt hg.clear
  have hon : Act.OnScreen g (.blacken (768 * g.pps)) :=
    hcount.trans_le (Nat.mul_le_mul_right _ hlow)
  refine ⟨?_, onScreen_concat h.onScreen hon, h.ordered.apply (e := .clear) (by grind)⟩
  rw [drawAll_concat]
  exact h.grid.clear (by omega) hg.clear

end Drawing

/-- The console stands where the terminal stands, and has drawn what it has after
`before`. -/
structure Console.Follows (g : Geometry) (before : List Act) (con : Console) (s : Terminal) :
    Prop where
  cursorX : con.cursorX = s.col
  cursorY : con.cursorY = (s.row * 10 : Nat)
  drawn : Drawn g (before ++ con.acts) s

/-- **Step lemma.** -/
theorem Console.Follows.event {g : Geometry} (hg : g.Regular) {before : List Act} {con : Console}
    {s : Terminal} (h : con.Follows g before s) {e : Event}
    (hallows : s.Allows g.height.toNat e) :
    (e.apply g.pps con).Follows g before (s.apply e) := by
  obtain ⟨hx, hy, hdrawn⟩ := h
  cases e with
  | put c =>
      by_cases hline : c = newline
      · subst hline
        refine ⟨rfl, ?_, hdrawn.newLine⟩
        rw [Event.apply, put_newline, Terminal.apply, Terminal.put, if_pos rfl]
        dsimp only
        omega
      · have hchar := hdrawn.char hline hallows (x := con.cursorX * 9) (by omega) hy white
          (by decide)
        rw [Event.apply, put_eq con hline]
        refine ⟨?_, ?_, ?_⟩
        · rw [Terminal.apply, Terminal.put, if_neg hline]
          dsimp only
          grind
        · rw [Terminal.apply, Terminal.put, if_neg hline]
          dsimp only
          grind
        · dsimp only
          rw [← List.append_assoc]
          exact hchar
  | back =>
      have hcol := hallows.1
      have herase := hdrawn.back hallows (x := (con.cursorX - 1) * 9) (by omega) hy
      refine ⟨?_, hy, ?_⟩
      · simp only [Event.apply, shellBackspace, Console.draw, Terminal.apply]
        omega
      · simp only [Event.apply, shellBackspace, Console.draw]
        rw [← List.append_assoc]
        exact herase
  | clear =>
      refine ⟨rfl, rfl, ?_⟩
      simp only [Event.apply, cmdClear, Console.draw]
      rw [← List.append_assoc]
      exact hdrawn.clear hg hallows

/-- **Run lemma.** -/
theorem Console.Follows.events {g : Geometry} (hg : g.Regular) {before : List Act} {con : Console}
    {s : Terminal} {events : List Event} (h : con.Follows g before s)
    (hfits : s.Fits g.height.toNat events) :
    (events.foldl (Event.apply g.pps) con).Follows g before (events.foldl Terminal.apply s) := by
  induction events generalizing con s with
  | nil => exact h
  | cons e rest ih =>
      obtain ⟨hallows, hrest⟩ := hfits
      exact ih (h.event hg hallows) hrest

/-! ## The banner -/

theorem drawString_cons (x y : Int) (c : UInt8) (rest : List UInt8) (color : UInt32) :
    drawString x y (c :: rest) color = .char x y c color :: drawString (x + 9) y rest color := by
  have hshift : ∀ i : Nat, x + ((i + 1 : Nat) : Int) * 9 = x + 9 + (i : Int) * 9 := by
    intro i
    omega
  rw [drawString, List.mapIdx_cons]
  simp only [hshift]
  simp [drawString]

/-- A string that stays in its row. -/
theorem Drawn.string {g : Geometry} {acts : List Act} {s : Terminal} (h : Drawn g acts s)
    {str : List UInt8} (hstr : newline ∉ str) (hroom : s.col + str.length ≤ 80)
    (hfits : s.Fits g.height.toNat (putAll str)) {color : UInt32} (hcolor : color ≠ 0) :
    Drawn g (acts ++ drawString (s.col * 9 : Nat) (s.row * 10 : Nat) str color)
      ((putAll str).foldl Terminal.apply s) := by
  induction str generalizing acts s with
  | nil =>
      rw [drawString, List.mapIdx_nil, List.append_nil]
      exact h
  | cons c rest ih =>
      obtain ⟨hallows, hrest⟩ := hfits
      obtain ⟨hc, hline⟩ := List.ne_and_not_mem_of_not_mem_cons hstr
      rw [List.length_cons] at hroom
      have hchar := h.char (Ne.symm hc) hallows rfl rfl color hcolor
      have hput : s.put c =
          { col := s.col + 1, row := s.row, cells := s.cells.place s.col s.row (some c) } := by
        rw [Terminal.put, if_neg (Ne.symm hc), if_neg (by omega), if_neg (by omega)]
      have hright : ((s.col + 1) * 9 : Nat) = ((s.col * 9 : Nat) : Int) + 9 := by omega
      have hmore := ih hchar hline (by rw [hput]; dsimp only; omega) hrest
      rw [hput] at hmore
      dsimp only at hmore
      rw [hright, List.append_assoc, List.singleton_append, ← drawString_cons] at hmore
      rw [putAll, List.map_cons, List.foldl_cons, Terminal.apply, hput]
      exact hmore

theorem Terminal.fits_append {height : Nat} {s : Terminal} {events more : List Event} :
    s.Fits height (events ++ more) ↔
      s.Fits height events ∧ (events.foldl Terminal.apply s).Fits height more := by
  induction events generalizing s with
  | nil => exact (iff_of_eq (true_and _)).symm
  | cons e rest ih =>
      rw [List.cons_append, Terminal.Fits, ih, Terminal.Fits, and_assoc]
      rfl

/-- A string and the end of its line. -/
theorem Drawn.line {g : Geometry} {acts : List Act} {s : Terminal} (h : Drawn g acts s)
    {str : List UInt8} (hcol : s.col = 0) (y : Int) (hy : y = (s.row * 10 : Nat))
    (hstr : newline ∉ str) (hroom : str.length ≤ 80)
    (hfits : s.Fits g.height.toNat (putAll (str ++ [newline]))) (color : UInt32)
    (hcolor : color ≠ 0) :
    Drawn g (acts ++ drawString 0 y str color)
      ((putAll (str ++ [newline])).foldl Terminal.apply s) := by
  rw [putAll, List.map_append] at hfits ⊢
  have hdrawn := h.string hstr (by omega) (Terminal.fits_append.mp hfits).1 hcolor
  rw [hcol, ← hy] at hdrawn
  rw [List.foldl_append]
  exact hdrawn.newLine

/-- The text above the first prompt. -/
def banner : List Event :=
  putAll (ascii "SimplrOS" ++ [newline]) ++ (putAll (ascii "AHCI: OK" ++ [newline]) ++
    (putAll (ascii "FSSO: OK" ++ [newline]) ++ putAll [newline]))

theorem drawn_blank {g : Geometry} (hg : g.Regular) :
    Drawn g [.blacken (g.height * g.pps)] .blank := by
  have hcount : (g.height * g.pps).toNat = g.size := by
    rw [UInt32.toNat_mul]
    exact Nat.mod_eq_of_lt hg.size
  refine ⟨fun col row => ?_, List.forall_mem_singleton.mpr hcount.le, .blank⟩
  exact ite_self []

theorem banner_drawn {g : Geometry} (hg : g.Regular)
    (hfits : Terminal.blank.Fits g.height.toNat banner) :
    Drawn g (.blacken (g.height * g.pps) :: drawString 0 0 (ascii "SimplrOS") white ++
        drawString 0 10 (ascii "AHCI: OK") green ++ drawString 0 20 (ascii "FSSO: OK") green)
      (banner.foldl Terminal.apply .blank) := by
  rw [banner, Terminal.fits_append, Terminal.fits_append, Terminal.fits_append] at hfits
  obtain ⟨hfirst, hsecond, hthird, -⟩ := hfits
  rw [banner, List.foldl_append, List.foldl_append, List.foldl_append]
  have htitle := (drawn_blank hg).line rfl 0 rfl (by decide +kernel) (by decide +kernel) hfirst
    white (by decide)
  have hahci := htitle.line (by decide +kernel) 10 (by decide +kernel) (by decide +kernel)
    (by decide +kernel) hsecond green (by decide)
  have hfsso := hahci.line (by decide +kernel) 20 (by decide +kernel) (by decide +kernel)
    (by decide +kernel) hthird green (by decide)
  exact hfsso.newLine

/-! ## Reading the screen -/

/-- The glyphs of the characters from `!` on. -/
def glyphs : List (List UInt8) := (font.drop 2).map Prod.snd

/-- The byte with these bits, the highest one first. -/
def byteOf (bits : List Bool) : UInt8 :=
  bits.foldl (fun byte bit => 2 * byte + if bit then 1 else 0) 0

/-- Which pixels of a row of a cell are not black. -/
def readRow (g : Geometry) (fb : Picture) (col row i : Nat) : UInt8 :=
  byteOf ((List.range 8).map fun k => fb ((row * 10 + i) * g.pps.toNat + (col * 9 + k)) != 0)

/-- The character whose glyph is in the cell. -/
def readCell (g : Geometry) (fb : Picture) (col row : Nat) : Option UInt8 :=
  (glyphs.findIdx? (· == (List.range 8).map (readRow g fb col row))).map
    fun i => UInt8.ofNat (33 + i)

theorem byteOf_bits : ∀ n < 256,
    byteOf ((List.range 8).map (inked (UInt8.ofNat n))) = UInt8.ofNat n := by
  decide +kernel

theorem byteOf_inked (b : UInt8) : byteOf ((List.range 8).map (inked b)) = b := by
  have hb := byteOf_bits b.toNat b.toNat_lt
  rwa [UInt8.ofNat_toNat] at hb

/-- **No two glyphs are the same.**  The rows of a character lead back to it. -/
theorem glyphs_read : ∀ n < 128, (glyphs.findIdx? (· ==
    (List.range 8).map (glyphRow (fun _ _ => 0) (UInt8.ofNat n)))).map
      (fun i => UInt8.ofNat (33 + i)) = if n < 33 then none else some (UInt8.ofNat n) := by
  decide +kernel

theorem glyphRow_ascii (stray : UInt8 → Nat → UInt8) {c : UInt8} (hc : c < 128) (row : Nat) :
    glyphRow stray c row = glyphRow (fun _ _ => 0) c row := by
  rw [glyphRow, glyphRow, if_pos hc, if_pos hc]

/-- What a person reads in a cell: a blank for a space, as for nothing. -/
def legible (c : Option UInt8) : Option UInt8 := c.filter fun b => 33 ≤ b

/-- The rows that a cell shows. -/
def cellRow (c : Option UInt8) (row : Nat) : UInt8 := glyphRow (fun _ _ => 0) (c.getD space) row

theorem cellRow_blank (row : Nat) : cellRow none row = 0 := by
  have hfont : font.lookup 32 = some (List.replicate 8 0) := by decide
  have hspace : glyphRow (fun _ _ => 0) space row =
      ((font.lookup 32).getD []).getD row 0 := if_pos (by decide)
  rw [cellRow, Option.getD_none, hspace, hfont, Option.getD_some, List.getD_eq_getElem?_getD,
    List.getElem?_replicate]
  split
  · rfl
  · rfl

/-- A pixel of a cell is black where the glyph leaves it out. -/
theorem Overlay.Holds.bit {o : Overlay} {c : Option UInt8} (h : o.Holds c)
    (hascii : ∀ b, c = some b → b < 128) (stray : UInt8 → Nat → UInt8) (row col : Nat) :
    (Overlay.color stray row col o != 0) = inked (cellRow c row) col := by
  cases c with
  | none =>
      have hempty : o = [] := h
      rw [hempty, cellRow_blank]
      simp [Overlay.color, inked]
  | some b =>
      obtain ⟨color, hcolor, hone⟩ := h
      have hrow := glyphRow_ascii stray (hascii b rfl) row
      rw [hone, Overlay.color, List.foldl_cons, List.foldl_nil, cellRow, Option.getD_some]
      dsimp only
      rw [hrow]
      grind

theorem cellRow_read {c : Option UInt8} (hascii : ∀ b, c = some b → b < 128) :
    (glyphs.findIdx? (· == (List.range 8).map (cellRow c))).map (fun i => UInt8.ofNat (33 + i)) =
      legible c := by
  cases c with
  | none => exact glyphs_read 32 (by decide)
  | some b =>
      have hb : b.toNat < 128 := hascii b rfl
      have hread := glyphs_read b.toNat hb
      rw [UInt8.ofNat_toNat] at hread
      refine hread.trans ?_
      have hle : (33 ≤ b) ↔ ¬ b.toNat < 33 := by
        rw [Nat.not_lt]
        exact Iff.rfl
      rw [legible, Option.filter_some]
      grind

/-- **Reading a cell.**  The screen shows what the terminal has there. -/
theorem readCell_legible {stray : UInt8 → Nat → UInt8} {g : Geometry} {fb : Picture} {grid : Grid}
    (hrenders : Renders stray g fb grid) (hg : g.Regular) {cells : Cells} (h : grid.Holds cells)
    {col row : Nat} (hcol : col ≤ 80) (hrow : 10 * row + 8 ≤ g.height.toNat)
    (hascii : ∀ b, cells col row = some b → b < 128) :
    readCell g fb col row = legible (cells col row) := by
  have hwide := hg.wide
  have hrows : (List.range 8).map (readRow g fb col row) =
      (List.range 8).map (cellRow (cells col row)) := by
    refine List.map_congr_left fun i hi => ?_
    rw [List.mem_range] at hi
    rw [← byteOf_inked (cellRow (cells col row) i), readRow]
    refine congrArg byteOf (List.map_congr_left fun k hk => ?_)
    rw [List.mem_range] at hk
    have hpixel := hrenders (col * 9 + k) (row * 10 + i) (by omega) (by omega)
    have hx : (col * 9 + k) / 9 = col := by omega
    have hxk : (col * 9 + k) % 9 = k := by omega
    have hy : (row * 10 + i) / 10 = row := by omega
    have hyi : (row * 10 + i) % 10 = i := by omega
    rw [hpixel, Grid.pixel, hx, hxk, hy, hyi, if_pos ⟨hcol, hk, hi⟩]
    exact (h col row).bit hascii stray i k
  rw [readCell, hrows]
  exact cellRow_read hascii

/-! ## The whole run -/

/-- The terminal after a session on the files. -/
def terminalAfter (files : List StoredFile) (keys : List UInt8) : Terminal :=
  (banner ++ transcript files keys).foldl Terminal.apply .blank

theorem initialDrawing_served {K : Kernel} {calls : List AddCall}
    (hahci : (ahciInit K.hba).1 = 0) (hsound : K.drive.Sound)
    (hreach : Reaches calls K.drive.disk) :
    (initialDrawing K).1 = .blacken (K.screen.height * K.screen.pps) ::
        drawString 0 0 (ascii "SimplrOS") white ++ drawString 0 10 (ascii "AHCI: OK") green ++
      drawString 0 20 (ascii "FSSO: OK") green := by
  have hmount := (fssoMount_sound hsound 0 K.staleFs hreach.inv.layout.magic).1
  rw [initialDrawing]
  dsimp only
  rw [if_pos hahci, if_pos hmount]

/-- At the first prompt. -/
theorem banner_followed {K : Kernel} {calls : List AddCall} (hahci : (ahciInit K.hba).1 = 0)
    (hsound : K.drive.Sound) (hreach : Reaches calls K.drive.disk) (hg : K.screen.Regular)
    (hfits : Terminal.blank.Fits K.screen.height.toNat banner) :
    Console.Follows K.screen (initialDrawing K).1 ⟨0, 40, []⟩
      (banner.foldl Terminal.apply .blank) := by
  have hcol : (banner.foldl Terminal.apply .blank).col = 0 := by decide +kernel
  have hrow : (banner.foldl Terminal.apply .blank).row = 4 := by decide +kernel
  refine ⟨?_, ?_, ?_⟩
  · rw [hcol]
    rfl
  · rw [hrow]
    rfl
  · rw [initialDrawing_served hahci hsound hreach, List.append_nil]
    exact banner_drawn hg hfits

/-- **The screen is readable.**  On every image that `mkfsso` can have built, and for
all keys, each cell reads as the character that the session leaves there, whatever was
on the screen before. -/
theorem kernelMain_readable {K : Kernel} {calls : List AddCall}
    (hahci : (ahciInit K.hba).1 = 0) (hsound : K.drive.Sound) (hreach : Reaches calls K.drive.disk)
    (hlen : calls.length ≤ 106) (hg : K.screen.Regular) (keys : List UInt8)
    (hfits : Terminal.blank.Fits K.screen.height.toNat
      (banner ++ transcript (filesOf calls) keys)) (fb : Picture) (col row : Nat) (hcol : col ≤ 80)
    (hrow : 10 * row + 8 ≤ K.screen.height.toNat)
    (hascii : ∀ b, (terminalAfter (filesOf calls) keys).cells col row = some b → b < 128) :
    readCell K.screen (paintAll K.stray K.screen fb (kernelMain K keys)) col row =
      legible ((terminalAfter (filesOf calls) keys).cells col row) := by
  obtain ⟨hbanner, hsession⟩ := Terminal.fits_append.mp hfits
  have hstart := banner_followed hahci hsound hreach hg hbanner
  have hdrawn := (hstart.events hg hsession).drawn
  rw [← List.foldl_append, ← shellActs_served hahci hsound hreach hlen] at hdrawn
  have hmain : Drawn K.screen (kernelMain K keys) (terminalAfter (filesOf calls) keys) := hdrawn
  have haligned := kernelMain_aligned K keys
  have hon := hmain.onScreen
  have hgrid := hmain.grid
  obtain ⟨acts, hacts⟩ := kernelMain_blackens K keys
  rw [hacts] at haligned hon hgrid ⊢
  exact readCell_legible (renders_from_blank hg acts haligned hon fb) hg hgrid hcol hrow hascii

/-- After `ls` the `l` stands behind the prompt. -/
theorem kernelMain_readable_ls :
    readCell smallKernel.screen (paintAll smallKernel.stray smallKernel.screen (fun _ => white)
      (kernelMain smallKernel correctedKeys)) 10 4 = some 108 :=
  have hcell : (terminalAfter (filesOf [helloCall]) correctedKeys).cells 10 4 = some 108 := by
    decide +kernel
  have hread := kernelMain_readable (K := smallKernel) (by decide) (fun _ => rfl)
    (Reaches.call Reaches.format helloCall_run) (by decide) ⟨by decide, by decide, by decide⟩
    correctedKeys (by decide +kernel) (fun _ => white) 10 4 (by decide) (by decide)
    fun b hb => Option.some_inj.mp (hcell.symm.trans hb) ▸ (by decide : (108 : UInt8) < 128)
  hread.trans (by rw [hcell]; decide)

end Shell
