import Mathlib
import SimplrOS.Font

/-!
# The framebuffer and its writers

`draw_char` and `draw_string` of `kernel.c`, and the cursor and `shell_putchar`,
`shell_print` and the backspace erasure of `shell.c`.  Nothing ever reads the
framebuffer, so what a drawing step does is the list of its accesses: the glyph it
looks up and the pixels it stores.

The index of a pixel mixes `int` and `uint32_t` and is therefore computed modulo
`2^32`.  A pixel whose `x` is negative lands at the end of the line before; it is in
bounds as long as there is such a line.
-/

namespace Shell

/-- What the firmware says about the framebuffer. -/
structure Geometry where
  height : UInt32
  pps : UInt32

/-- `height * pixels_per_scanline`, the number of pixels there are. -/
def Geometry.size (g : Geometry) : Nat := g.height.toNat * g.pps.toNat

/-- A table lookup or a framebuffer store. -/
inductive Access
  | glyph (index : Nat)
  | pixel (index : UInt32) (color : UInt32)
deriving DecidableEq

/-- The index lies inside the font table or the framebuffer. -/
def Access.InBounds (g : Geometry) : Access → Prop
  | .glyph index => index < 128
  | .pixel index _ => index.toNat < g.size

abbrev white : UInt32 := 0xFFFFFF
abbrev green : UInt32 := 0x00FF00
abbrev red : UInt32 := 0xFF0000

/-! ## The writers -/

/-- `y * pixels_per_scanline + x`, with the `int`s converted to `uint32_t`. -/
def pixelIndex (pps : UInt32) (x y : Int) : UInt32 := UInt32.ofInt y * pps + UInt32.ofInt x

/-- The double loop over the rows and columns of a cell. -/
def cell : List (Nat × Nat) :=
  (List.range 8).flatMap fun row => (List.range 8).map fun col => (row, col)

/-- `glyph[row] & (0x80 >> col)`. -/
def inked (bits : UInt8) (col : Nat) : Bool := bits &&& (0x80 >>> UInt8.ofNat col) != 0

/-- `draw_char`: the glyph's row bytes are looked up and its set pixels stored. -/
def drawChar (stray : UInt8 → Nat → UInt8) (pps : UInt32) (x y : Int) (c : UInt8)
    (color : UInt32) : List Access :=
  .glyph c.toNat :: (cell.filter fun p => inked (glyphRow stray c p.1) p.2).map fun p =>
    .pixel (pixelIndex pps (x + p.2) (y + p.1)) color

/-- The erasure of the cell at `x`, `y` after a backspace. -/
def eraseCell (pps : UInt32) (x y : Int) : List Access :=
  cell.map fun p => .pixel (pixelIndex pps (x + p.2) (y + p.1)) 0

/-- The loops that blacken the first `count` pixels. -/
def blacken (count : UInt32) : List Access :=
  (List.range count.toNat).map fun i => .pixel (UInt32.ofNat i) 0

/-- A step of the drawing path: one call of a writer with its arguments. -/
inductive Act
  | blacken (count : UInt32)
  | char (x y : Int) (c : UInt8) (color : UInt32)
  | erase (x y : Int)
deriving DecidableEq

/-- The lookups and stores of a drawing step. -/
def Act.accesses (stray : UInt8 → Nat → UInt8) (g : Geometry) : Act → List Access
  | .blacken count => Shell.blacken count
  | .char x y c color => drawChar stray g.pps x y c color
  | .erase x y => eraseCell g.pps x y

/-- `draw_string`: characters nine pixels apart. -/
def drawString (x y : Int) (str : List UInt8) (color : UInt32) : List Act :=
  str.mapIdx fun i c => .char (x + i * 9) y c color

/-- The bytes of a string literal. -/
def ascii (s : String) : List UInt8 := s.toList.map fun c => UInt8.ofNat c.toNat

/-- `'\n'`, where `shell_readline` stops. -/
abbrev newline : UInt8 := 10
abbrev backspace : UInt8 := 8
abbrev space : UInt8 := 32

/-! ## The console -/

/-- The cursor and the drawing steps made so far, oldest first.  `cursor_x` counts
cells and `cursor_y` pixel rows; the latter is used modulo `2^32` only, so that an
`int` that has wrapped draws at the same pixels. -/
structure Console where
  cursorX : Int
  cursorY : Int
  acts : List Act

/-- One drawing step more. -/
def Console.draw (con : Console) (act : Act) : Console := { con with acts := con.acts ++ [act] }

/-- `shell_putchar`: a newline moves the cursor only, and after column 80 the next row begins.
-/
def shellPutchar (con : Console) (c : UInt8) : Console :=
  if c = newline then { con with cursorX := 0, cursorY := con.cursorY + 10 }
  else
    let con := con.draw (.char (con.cursorX * 9) con.cursorY c white)
    let con := { con with cursorX := con.cursorX + 1 }
    if con.cursorX > 80 then { con with cursorX := 0, cursorY := con.cursorY + 10 } else con

/-- `shell_print`. -/
def shellPrint (con : Console) (str : List UInt8) : Console := str.foldl shellPutchar con

/-- What `shell_readline` draws for a backspace. -/
def shellBackspace (con : Console) : Console :=
  let con := { con with cursorX := con.cursorX - 1 }
  con.draw (.erase (con.cursorX * 9) con.cursorY)

/-! ## When a drawing step stays inside -/

/-- Where the console puts its cells: to the right at most column 80, and left of
column 0 only if there is a line of text above. -/
structure Placed (x y : Int) : Prop where
  right : x ≤ 728
  top : 0 ≤ y
  left : 0 ≤ x ∨ (-2295 ≤ x ∧ x ≤ -8 ∧ 10 ≤ y)

/-- A step that draws at a place where the arithmetic does not wrap. -/
def Act.Placed : Act → Prop
  | .blacken _ => True
  | .char x y _ _ => Shell.Placed x y
  | .erase x y => Shell.Placed x y

/-- The first pixel row that a cell must not use: the one below the screen, and the
next one if the cell is left of column 0 and its pixels are on the line before. -/
def Geometry.rowLimit (g : Geometry) (x : Int) : Int :=
  if x < 0 then g.height.toNat + 1 else g.height.toNat

/-- Row `y` is usable.  A framebuffer of `2^32` pixels or more has no end that an
index could get past. -/
def Geometry.HasRow (g : Geometry) (x y : Int) : Prop := 2 ^ 32 ≤ g.size ∨ y < g.rowLimit x

/-- The step draws a glyph of the font, no inked or erased row is below the screen
and no more is blackened than there is. -/
def Act.Fits (stray : UInt8 → Nat → UInt8) (g : Geometry) : Act → Prop
  | .blacken count => count.toNat ≤ g.size
  | .char x y c _ => c < 128 ∧ ∀ row < 8, glyphRow stray c row ≠ 0 → g.HasRow x (y + (row : Nat))
  | .erase x y => g.HasRow x (y + 7)

instance (g : Geometry) (x y : Int) : Decidable (g.HasRow x y) :=
  inferInstanceAs (Decidable (2 ^ 32 ≤ g.size ∨ y < g.rowLimit x))

instance (stray : UInt8 → Nat → UInt8) (g : Geometry) (act : Act) : Decidable (act.Fits stray g) :=
  match act with
  | .blacken count => inferInstanceAs (Decidable (count.toNat ≤ g.size))
  | .char x y c _ => inferInstanceAs (Decidable (c < 128 ∧
      ∀ row < 8, glyphRow stray c row ≠ 0 → g.HasRow x (y + (row : Nat))))
  | .erase x y => inferInstanceAs (Decidable (g.HasRow x (y + 7)))

/-- The cell starts at most one line before its own, and no index in it wraps. -/
def Act.Near (g : Geometry) : Act → Prop
  | .blacken _ => True
  | .char x y _ _ => -736 ≤ x ∧ (y + 8) * g.pps.toNat ≤ 4294967296
  | .erase x y => -736 ≤ x ∧ (y + 8) * g.pps.toNat ≤ 4294967296

theorem toNat_ofInt (x : Int) : ((UInt32.ofInt x).toNat : Int) = x % 4294967296 := by
  have hnonneg : 0 ≤ x % 4294967296 := Int.emod_nonneg x (by decide)
  have hlt : (x % 4294967296).toNat < UInt32.size := by
    have hsize : UInt32.size = 4294967296 := rfl
    omega
  have hcast : (UInt32.ofInt x).toNat = (x % 4294967296).toNat := UInt32.toNat_ofNat_of_lt' hlt
  rw [hcast, Int.toNat_of_nonneg hnonneg]

/-- The mixed arithmetic is arithmetic modulo `2^32`. -/
theorem pixelIndex_toNat (pps : UInt32) (x y : Int) :
    ((pixelIndex pps x y).toNat : Int) = (y * pps.toNat + x) % 4294967296 := by
  have hnat : (pixelIndex pps x y).toNat =
      ((UInt32.ofInt y).toNat * pps.toNat % 4294967296 + (UInt32.ofInt x).toNat) % 4294967296 := by
    rw [pixelIndex, UInt32.toNat_add, UInt32.toNat_mul]
  have hproduct : y % 4294967296 * pps.toNat % 4294967296 = y * pps.toNat % 4294967296 := by
    rw [Int.mul_emod, Int.emod_emod, ← Int.mul_emod]
  calc ((pixelIndex pps x y).toNat : Int)
      = (y % 4294967296 * pps.toNat % 4294967296 + x % 4294967296) % 4294967296 := by
        rw [hnat, Int.natCast_emod, Int.natCast_add, Int.natCast_emod, Int.natCast_mul,
          toNat_ofInt, toNat_ofInt]
        rfl
    _ = (y * pps.toNat + x) % 4294967296 := by rw [hproduct, ← Int.add_emod]

theorem mem_cell {p : Nat × Nat} : p ∈ cell ↔ p.1 < 8 ∧ p.2 < 8 := by
  simp only [cell, List.mem_flatMap, List.mem_map, List.mem_range]
  constructor
  · intro h
    obtain ⟨row, hrow, col, hcol, rfl⟩ := h
    exact ⟨hrow, hcol⟩
  · intro h
    exact ⟨p.1, h.1, p.2, h.2, rfl⟩

theorem ne_zero_of_inked {bits : UInt8} {col : Nat} (h : inked bits col = true) : bits ≠ 0 := by
  intro hbits
  rw [hbits, inked] at h
  simp at h

theorem Geometry.HasRow.mono {g : Geometry} {x y y' : Int} (h : g.HasRow x y') (hle : y ≤ y') :
    g.HasRow x y :=
  h.imp_right (Int.lt_of_le_of_lt hle)

section Bounds

variable {g : Geometry} {x y : Int}

/-- A pixel between the first and the last is stored in bounds. -/
theorem pixelIndex_lt (hnonneg : 0 ≤ y * g.pps.toNat + x)
    (hlt : y * g.pps.toNat + x < (g.size : Int)) : (pixelIndex g.pps x y).toNat < g.size := by
  have hindex := pixelIndex_toNat g.pps x y
  omega

/-- No index gets past `2^32` pixels. -/
theorem pixelIndex_lt_of_large (hlarge : 2 ^ 32 ≤ g.size) :
    (pixelIndex g.pps x y).toNat < g.size :=
  Nat.lt_of_lt_of_le (pixelIndex g.pps x y).toNat_lt hlarge

theorem size_eq (g : Geometry) : (g.size : Int) = g.height.toNat * g.pps.toNat :=
  Int.natCast_mul _ _

/-- A pixel of a placed cell in a usable row is in bounds. -/
theorem Placed.pixel_lt (h : Placed x y) (hpps : 736 ≤ g.pps) {row col : Nat} (hcol : col < 8)
    (hrow : g.HasRow x (y + row)) : (pixelIndex g.pps (x + col) (y + row)).toNat < g.size := by
  rcases hrow with hlarge | hlimit
  · exact pixelIndex_lt_of_large hlarge
  have hwidth : 736 ≤ g.pps.toNat := hpps
  have hright := h.right
  have htop := h.top
  have hsize := size_eq g
  unfold Geometry.rowLimit at hlimit
  rcases h.left with hx | ⟨hleft, hx, hbelow⟩
  · -- the pixel is on the line of its row
    rw [if_neg (by omega)] at hlimit
    have hrow : 0 ≤ (y + row) * (g.pps.toNat : Int) := Int.mul_nonneg (by omega) (by omega)
    have hnext : (y + row + 1) * (g.pps.toNat : Int) ≤ g.height.toNat * g.pps.toNat :=
      Int.mul_le_mul_of_nonneg_right (by omega) (by omega)
    rw [Int.add_mul, Int.one_mul] at hnext
    exact pixelIndex_lt (by omega) (by omega)
  · -- the pixel is on a line before, and the screen has ten of them
    rw [if_pos (by omega)] at hlimit
    have hrow : 10 * 736 ≤ (y + row) * (g.pps.toNat : Int) :=
      Int.mul_le_mul (by omega) (by omega) (by decide) (by omega)
    have hlast : (y + row) * (g.pps.toNat : Int) ≤ g.height.toNat * g.pps.toNat :=
      Int.mul_le_mul_of_nonneg_right (by omega) (by omega)
    exact pixelIndex_lt (by omega) (by omega)

/-- **One drawing step.**  A placed step that fits makes only accesses in bounds. -/
theorem Act.Fits.inBounds {stray : UInt8 → Nat → UInt8} {act : Act} (hfits : act.Fits stray g)
    (hplaced : act.Placed) (hpps : 736 ≤ g.pps) :
    ∀ access ∈ act.accesses stray g, access.InBounds g := by
  intro access hmem
  cases act with
  | blacken count =>
      obtain ⟨i, hi, rfl⟩ := List.mem_map.mp hmem
      have hlt : i < count.toNat := List.mem_range.mp hi
      have hindex : (UInt32.ofNat i).toNat ≤ i := by
        rw [UInt32.toNat_ofNat']
        exact Nat.mod_le _ _
      have hcount : count.toNat ≤ g.size := hfits
      show (UInt32.ofNat i).toNat < g.size
      omega
  | char x y c color =>
      obtain ⟨hglyph, hrows⟩ := hfits
      rcases List.mem_cons.mp hmem with rfl | hpixel
      · exact hglyph
      · obtain ⟨p, hp, rfl⟩ := List.mem_map.mp hpixel
        obtain ⟨hcell, hinked⟩ := List.mem_filter.mp hp
        obtain ⟨hrow, hcol⟩ := mem_cell.mp hcell
        exact hplaced.pixel_lt hpps hcol (hrows p.1 hrow (ne_zero_of_inked hinked))
  | erase x y =>
      obtain ⟨p, hp, rfl⟩ := List.mem_map.mp hmem
      obtain ⟨hrow, hcol⟩ := mem_cell.mp hp
      exact hplaced.pixel_lt hpps hcol (hfits.mono (by omega))

/-- Conversely, a pixel that is stored in bounds is in a usable row. -/
theorem Placed.hasRow (h : Placed x y) (hpps : 736 ≤ g.pps) {row col : Nat} (hrow : row < 8)
    (hcol : col < 8) (hleft : -736 ≤ x) (hnear : (y + 8) * g.pps.toNat ≤ 4294967296)
    (hin : (pixelIndex g.pps (x + col) (y + row)).toNat < g.size) : g.HasRow x (y + row) := by
  have hwidth : 736 ≤ g.pps.toNat := hpps
  have hright := h.right
  have htop := h.top
  have hindex := pixelIndex_toNat g.pps (x + col) (y + row)
  have hsize := size_eq g
  have hbelow : (y + row + 1) * (g.pps.toNat : Int) ≤ (y + 8) * g.pps.toNat :=
    Int.mul_le_mul_of_nonneg_right (by omega) (by omega)
  rw [Int.add_mul, Int.one_mul] at hbelow
  refine Or.inr ?_
  unfold Geometry.rowLimit
  rcases h.left with hx | ⟨_, hx, hten⟩
  · -- the index is at least that of the row's first pixel
    rw [if_neg (by omega)]
    have hbefore : (y + row) * (g.pps.toNat : Int) < g.height.toNat * g.pps.toNat := by omega
    exact Int.lt_of_mul_lt_mul_right hbefore (by omega)
  · -- the index is at least that of the first pixel of the line before
    rw [if_pos (by omega)]
    have hstart : 10 * 736 ≤ (y + row) * (g.pps.toNat : Int) :=
      Int.mul_le_mul (by omega) (by omega) (by decide) (by omega)
    have hnext : (g.height.toNat + 1 : Int) * g.pps.toNat =
        g.height.toNat * g.pps.toNat + g.pps.toNat := by rw [Int.add_mul, Int.one_mul]
    have hbefore : (y + row) * (g.pps.toNat : Int) < (g.height.toNat + 1) * g.pps.toNat := by
      omega
    exact Int.lt_of_mul_lt_mul_right hbefore (by omega)

/-- A row with ink has an inked column. -/
theorem exists_inked {bits : UInt8} (h : bits ≠ 0) : ∃ col < 8, inked bits col = true := by
  have hall : ∀ n < 256, UInt8.ofNat n ≠ 0 → ∃ col < 8, inked (UInt8.ofNat n) col = true := by
    decide +kernel
  have hbits := hall bits.toNat bits.toNat_lt
  rw [UInt8.ofNat_toNat] at hbits
  exact hbits h

/-- **One drawing step, conversely.**  A placed step near the screen that makes only
accesses in bounds fits. -/
theorem Act.fits_of_inBounds {stray : UInt8 → Nat → UInt8} {act : Act} (hplaced : act.Placed)
    (hpps : 736 ≤ g.pps) (hnear : act.Near g)
    (hin : ∀ access ∈ act.accesses stray g, access.InBounds g) : act.Fits stray g := by
  cases act with
  | blacken count =>
      apply Classical.byContradiction
      intro hmore
      have hlt : g.size < count.toNat := Nat.not_le.mp hmore
      have hstored : .pixel (UInt32.ofNat g.size) 0 ∈ (Act.blacken count).accesses stray g :=
        List.mem_map.mpr ⟨g.size, List.mem_range.mpr hlt, rfl⟩
      have hindex : (UInt32.ofNat g.size).toNat = g.size :=
        UInt32.toNat_ofNat_of_lt' (Nat.lt_trans hlt count.toNat_lt)
      have hbad : (UInt32.ofNat g.size).toNat < g.size := hin _ hstored
      omega
  | char x y c color =>
      refine ⟨hin _ List.mem_cons_self, fun row hrow hink => ?_⟩
      obtain ⟨col, hcol, hinked⟩ := exists_inked hink
      have hcell : (row, col) ∈ cell := mem_cell.mpr ⟨hrow, hcol⟩
      have hstored : .pixel (pixelIndex g.pps (x + col) (y + row)) color ∈
          (Act.char x y c color).accesses stray g :=
        List.mem_cons_of_mem _ (List.mem_map.mpr
          ⟨(row, col), List.mem_filter.mpr ⟨hcell, hinked⟩, rfl⟩)
      exact hplaced.hasRow hpps hrow hcol hnear.1 hnear.2 (hin _ hstored)
  | erase x y =>
      have hcell : (7, 0) ∈ cell := mem_cell.mpr ⟨by decide, by decide⟩
      have hstored : .pixel (pixelIndex g.pps (x + (0 : Nat)) (y + (7 : Nat))) 0 ∈
          (Act.erase x y).accesses stray g := List.mem_map.mpr ⟨(7, 0), hcell, rfl⟩
      exact hplaced.hasRow hpps (by decide) (by decide) hnear.1 hnear.2 (hin _ hstored)

end Bounds

end Shell
