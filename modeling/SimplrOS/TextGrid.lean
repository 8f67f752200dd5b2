import SimplrOS.ConsoleEvents
import SimplrOS.DrawSafety
import SimplrOS.Framebuffer

/-!
# What the pixels show

Over the framebuffer lies a grid of cells of 9 by 10 pixels: a cell holds the characters
drawn in it since it was last blackened, which overlay each other in its first 8 by 8
pixels, and the rest of the screen stays black.

`Renders` connects the two pixel by pixel.  It is established by the first step of
the kernel, whatever the firmware left on the screen, and kept by every step that
stays on the screen.
-/

namespace Shell

open ByteStore Fsso

/-! ## The grid -/

/-- The characters in a cell with their colors, oldest first. -/
abbrev Overlay := List (UInt8 × UInt32)

/-- The cells by their upper left pixel. -/
abbrev Grid := Int → Int → Overlay

/-- Nothing is drawn yet. -/
def blankGrid : Grid := fun _ _ => []

/-- The effect of a drawing step on the grid. -/
def Grid.draw (pps : UInt32) (grid : Grid) : Act → Grid
  | .blacken count => fun x y => if y * pps.toNat < count.toNat then [] else grid x y
  | .char x' y' c color => fun x y =>
      if x = x' ∧ y = y' then grid x y ++ [(c, color)] else grid x y
  | .erase x' y' => fun x y => if x = x' ∧ y = y' then [] else grid x y

@[simp] theorem Grid.draw_blacken (pps : UInt32) (grid : Grid) (count : UInt32) (x y : Int) :
    grid.draw pps (.blacken count) x y =
      if y * pps.toNat < count.toNat then [] else grid x y := rfl

@[simp] theorem Grid.draw_char (pps : UInt32) (grid : Grid) (x' y' : Int) (c : UInt8)
    (color : UInt32) (x y : Int) :
    grid.draw pps (.char x' y' c color) x y =
      if x = x' ∧ y = y' then grid x y ++ [(c, color)] else grid x y := rfl

@[simp] theorem Grid.draw_erase (pps : UInt32) (grid : Grid) (x' y' x y : Int) :
    grid.draw pps (.erase x' y') x y = if x = x' ∧ y = y' then [] else grid x y := rfl

/-- The grid after a list of drawing steps. -/
def Grid.drawAll (pps : UInt32) (grid : Grid) (acts : List Act) : Grid :=
  acts.foldl (Grid.draw pps) grid

/-- The color of a cell at a row and a column. -/
def Overlay.color (stray : UInt8 → Nat → UInt8) (row col : Nat) (o : Overlay) : UInt32 :=
  o.foldl (fun color p => if inked (glyphRow stray p.1 row) col then p.2 else color) 0

/-- The color of a pixel. -/
def Grid.pixel (stray : UInt8 → Nat → UInt8) (grid : Grid) (px py : Nat) : UInt32 :=
  if px / 9 ≤ 80 ∧ px % 9 < 8 ∧ py % 10 < 8 then
    Overlay.color stray (py % 10) (px % 9) (grid (px / 9 * 9 : Nat) (py / 10 * 10 : Nat))
  else 0

/-- The framebuffer shows the grid. -/
def Renders (stray : UInt8 → Nat → UInt8) (g : Geometry) (fb : Picture) (grid : Grid) : Prop :=
  ∀ px py, px < g.pps.toNat → py < g.height.toNat →
    fb (py * g.pps.toNat + px) = grid.pixel stray px py

/-- A row holds 81 cells, and neither the screen nor what `clear` blackens has `2^32`
pixels. -/
structure Geometry.Regular (g : Geometry) : Prop where
  wide : 736 ≤ g.pps.toNat
  size : g.size < 4294967296
  clear : 768 * g.pps.toNat < 4294967296

/-- The step draws at a cell, or blackens as `kernel_main` or `clear` does. -/
def Act.Aligned (g : Geometry) : Act → Prop
  | .blacken count => count = 768 * g.pps ∨ count = g.height * g.pps
  | .char x y _ _ => 9 ∣ x ∧ x ≤ 720 ∧ 10 ∣ y ∧ 0 ≤ y
  | .erase x y => 9 ∣ x ∧ x ≤ 720 ∧ 10 ∣ y ∧ 0 ≤ y

/-- The step stays on the screen. -/
def Act.OnScreen (g : Geometry) : Act → Prop
  | .blacken count => count.toNat ≤ g.size
  | .char x y _ _ => 0 ≤ x ∧ y + 8 ≤ g.height.toNat
  | .erase x y => 0 ≤ x ∧ y + 8 ≤ g.height.toNat

instance (g : Geometry) (act : Act) : Decidable (act.OnScreen g) :=
  match act with
  | .blacken count => inferInstanceAs (Decidable (count.toNat ≤ g.size))
  | .char x y _ _ => inferInstanceAs (Decidable (0 ≤ x ∧ y + 8 ≤ g.height.toNat))
  | .erase x y => inferInstanceAs (Decidable (0 ≤ x ∧ y + 8 ≤ g.height.toNat))

/-! ## Painting a cell -/

section Paint

variable {stray : UInt8 → Nat → UInt8} {g : Geometry} {a b px py : Nat}

theorem pixelIndex_nat (hsize : g.size < 4294967296) {x y : Nat} (hx : x < g.pps.toNat)
    (hy : y < g.height.toNat) : (pixelIndex g.pps x y).toNat = y * g.pps.toNat + x := by
  have hrow : (y + 1) * g.pps.toNat ≤ g.size := Nat.mul_le_mul_right _ hy
  have hon : OnLine g x y := ⟨by omega, by omega, by omega, by
    exact_mod_cast hrow.trans hsize.le⟩
  exact_mod_cast hon.index

/-- The pixel at `px`, `py` is in the 8 by 8 pixels from `a`, `b` on. -/
def InCell (a b px py : Nat) : Prop := (a ≤ px ∧ px < a + 8) ∧ b ≤ py ∧ py < b + 8

instance (a b px py : Nat) : Decidable (InCell a b px py) :=
  inferInstanceAs (Decidable ((a ≤ px ∧ px < a + 8) ∧ b ≤ py ∧ py < b + 8))

theorem cell_index (hsize : g.size < 4294967296) (ha : a + 8 ≤ g.pps.toNat)
    (hb : b + 8 ≤ g.height.toNat) {p : Nat × Nat} (hp : p ∈ cell) :
    (pixelIndex g.pps ((a : Int) + p.2) ((b : Int) + p.1)).toNat =
      (b + p.1) * g.pps.toNat + (a + p.2) := by
  obtain ⟨hrow, hcol⟩ := mem_cell.mp hp
  rw [← Int.natCast_add, ← Int.natCast_add]
  exact pixelIndex_nat hsize (by omega) (by omega)

/-- A store of a cell that hits the pixel. -/
theorem cell_hit (hsize : g.size < 4294967296) (ha : a + 8 ≤ g.pps.toNat)
    (hb : b + 8 ≤ g.height.toNat) (hpx : px < g.pps.toNat) {p : Nat × Nat} (hp : p ∈ cell)
    (hhit : (pixelIndex g.pps ((a : Int) + p.2) ((b : Int) + p.1)).toNat =
      py * g.pps.toNat + px) : InCell a b px py ∧ p = (py - b, px - a) := by
  obtain ⟨hrow, hcol⟩ := mem_cell.mp hp
  rw [cell_index hsize ha hb hp] at hhit
  obtain ⟨hx, hy⟩ := index_inj (by omega) hpx hhit
  refine ⟨⟨⟨by omega, by omega⟩, by omega, by omega⟩, Prod.ext ?_ ?_⟩
  · dsimp only
    omega
  · dsimp only
    omega

theorem InCell.mem (h : InCell a b px py) : (py - b, px - a) ∈ cell := by
  obtain ⟨⟨_, _⟩, _, _⟩ := h
  exact mem_cell.mpr ⟨by dsimp only; omega, by dsimp only; omega⟩

theorem InCell.index (h : InCell a b px py) (hsize : g.size < 4294967296)
    (ha : a + 8 ≤ g.pps.toNat) (hb : b + 8 ≤ g.height.toNat) :
    (pixelIndex g.pps ((a : Int) + (px - a : Nat)) ((b : Int) + (py - b : Nat))).toNat =
      py * g.pps.toNat + px := by
  have hplace := cell_index hsize ha hb h.mem
  obtain ⟨⟨hax, _⟩, hby, _⟩ := h
  dsimp only at hplace
  rw [hplace, Nat.add_sub_cancel' hby, Nat.add_sub_cancel' hax]

/-- **A character** changes the inked pixels of its cell. -/
theorem paint_char (hsize : g.size < 4294967296) (ha : a + 8 ≤ g.pps.toNat)
    (hb : b + 8 ≤ g.height.toNat) (hpx : px < g.pps.toNat) (fb : Picture) (c : UInt8)
    (color : UInt32) :
    Act.paint stray g fb (.char a b c color) (py * g.pps.toNat + px) =
      if InCell a b px py ∧ inked (glyphRow stray c (py - b)) (px - a) = true then color
      else fb (py * g.pps.toNat + px) := by
  by_cases hink : InCell a b px py ∧ inked (glyphRow stray c (py - b)) (px - a) = true
  · rw [if_pos hink, ← hink.1.index hsize ha hb]
    exact paint_char_ink fb hink.1.mem hink.2
  · rw [if_neg hink]
    apply paint_char_out
    intro p hp hinked hhit
    obtain ⟨hinside, rfl⟩ := cell_hit hsize ha hb hpx hp hhit
    exact hink ⟨hinside, hinked⟩

/-- **An erasure** blackens the pixels of its cell. -/
theorem paint_erase (stray : UInt8 → Nat → UInt8) (hsize : g.size < 4294967296)
    (ha : a + 8 ≤ g.pps.toNat) (hb : b + 8 ≤ g.height.toNat) (hpx : px < g.pps.toNat)
    (fb : Picture) :
    (InCell a b px py → Act.paint stray g fb (.erase a b) (py * g.pps.toNat + px) = 0) ∧
      (¬ InCell a b px py →
        Act.paint stray g fb (.erase a b) (py * g.pps.toNat + px) =
          fb (py * g.pps.toNat + px)) := by
  constructor
  · intro hinside
    rw [← hinside.index hsize ha hb]
    exact paint_erase_cell stray fb hinside.mem
  · intro houtside
    apply paint_erase_out
    intro p hp hhit
    exact houtside (cell_hit hsize ha hb hpx hp hhit).1

/-- **Blackening** starts at the first pixel. -/
theorem paint_blacken (fb : Picture) (count : UInt32) (n : Nat) :
    Act.paint stray g fb (.blacken count) n = if n < count.toNat then 0 else fb n := by
  have hmem : ∀ i color', Access.pixel i color' ∈ blacken count →
      color' = 0 ∧ i.toNat < count.toNat := by
    intro i color' hin
    obtain ⟨k, hk, heq⟩ := List.mem_map.mp hin
    have hlt := count.toNat_lt
    have hkc := List.mem_range.mp hk
    cases heq
    exact ⟨rfl, by rw [UInt32.toNat_ofNat']; omega⟩
  by_cases hn : n < count.toNat
  · have hlt := count.toNat_lt
    rw [if_pos hn]
    refine foldl_store_of_mem fb (fun i color' hin => (hmem i color' hin).1)
      (List.mem_map.mpr ⟨n, List.mem_range.mpr hn, rfl⟩) ?_
    rw [UInt32.toNat_ofNat']
    omega
  · rw [if_neg hn]
    apply foldl_store_of_out
    intro i color' hin hhit
    have := (hmem i color' hin).2
    omega

end Paint

/-! ## One step on both levels -/

section Step

variable {stray : UInt8 → Nat → UInt8} {g : Geometry} {fb : Picture} {grid : Grid}

/-- The pixels of the cell at `a`, `b` are those whose cell it is. -/
theorem inCell_iff {a b px py : Nat} (ha : a % 9 = 0) (hb : b % 10 = 0) :
    InCell a b px py ↔ px % 9 < 8 ∧ py % 10 < 8 ∧ px / 9 * 9 = a ∧ py / 10 * 10 = b := by
  unfold InCell
  constructor
  · intro h
    obtain ⟨⟨_, _⟩, _, _⟩ := h
    omega
  · intro h
    omega

theorem Renders.char (h : Renders stray g fb grid) (hsize : g.size < 4294967296) {a b : Nat}
    (hcol : a % 9 = 0) (hright : a ≤ 720) (hrow : b % 10 = 0) (ha : a + 8 ≤ g.pps.toNat)
    (hb : b + 8 ≤ g.height.toNat) (c : UInt8) (color : UInt32) :
    Renders stray g (Act.paint stray g fb (.char a b c color))
      (grid.draw g.pps (.char a b c color)) := by
  intro px py hpx hpy
  rw [paint_char hsize ha hb hpx, h px py hpx hpy,
    if_congr (and_congr_left' (inCell_iff hcol hrow)) rfl rfl]
  simp only [Grid.pixel, Grid.draw_char]
  by_cases hcell : px / 9 ≤ 80 ∧ px % 9 < 8 ∧ py % 10 < 8
  · rw [if_pos hcell, if_pos hcell]
    by_cases hhere : px / 9 * 9 = a ∧ py / 10 * 10 = b
    · have hx : px - a = px % 9 := by omega
      have hy : py - b = py % 10 := by omega
      have hint : ((px / 9 * 9 : Nat) : Int) = a ∧ ((py / 10 * 10 : Nat) : Int) = b := by omega
      rw [if_pos hint, Overlay.color, Overlay.color, List.foldl_append, hx, hy]
      simp only [List.foldl_cons, List.foldl_nil]
      by_cases hink : inked (glyphRow stray c (py % 10)) (px % 9) = true
      · rw [if_pos ⟨⟨hcell.2.1, hcell.2.2, hhere⟩, hink⟩, if_pos hink]
      · rw [if_neg fun hboth => hink hboth.2, if_neg hink]
    · have hint : ¬ (((px / 9 * 9 : Nat) : Int) = a ∧ ((py / 10 * 10 : Nat) : Int) = b) := by
        omega
      rw [if_neg hint, if_neg fun hboth => hhere hboth.1.2.2]
  · rw [if_neg hcell, if_neg hcell, if_neg]
    intro hboth
    obtain ⟨⟨hx, hy, hpa, _⟩, _⟩ := hboth
    exact hcell ⟨by omega, hx, hy⟩

theorem Renders.erase (h : Renders stray g fb grid) (hsize : g.size < 4294967296) {a b : Nat}
    (hcol : a % 9 = 0) (hrow : b % 10 = 0) (ha : a + 8 ≤ g.pps.toNat)
    (hb : b + 8 ≤ g.height.toNat) :
    Renders stray g (Act.paint stray g fb (.erase a b)) (grid.draw g.pps (.erase a b)) := by
  intro px py hpx hpy
  obtain ⟨hinside, houtside⟩ := paint_erase stray hsize ha hb hpx fb
  simp only [Grid.pixel, Grid.draw_erase]
  by_cases hin : InCell a b px py
  · obtain ⟨_, _, hpa, hpb⟩ := (inCell_iff hcol hrow).mp hin
    have hint : ((px / 9 * 9 : Nat) : Int) = a ∧ ((py / 10 * 10 : Nat) : Int) = b := by omega
    rw [hinside hin, if_pos hint]
    exact (ite_self 0).symm
  · rw [houtside hin, h px py hpx hpy, Grid.pixel]
    by_cases hcell : px / 9 ≤ 80 ∧ px % 9 < 8 ∧ py % 10 < 8
    · have hint : ¬ (((px / 9 * 9 : Nat) : Int) = a ∧ ((py / 10 * 10 : Nat) : Int) = b) := by
        intro hboth
        exact hin ((inCell_iff hcol hrow).mpr ⟨hcell.2.1, hcell.2.2, by omega, by omega⟩)
      rw [if_pos hcell, if_pos hcell, if_neg hint]
    · rw [if_neg hcell, if_neg hcell]

/-- Blackening whole rows that do not cut a cell. -/
theorem Renders.blacken (h : Renders stray g fb grid) (rows : Nat) {count : UInt32}
    (hcount : count.toNat = rows * g.pps.toNat) (hwhole : rows % 10 = 8 ∨ g.height.toNat ≤ rows) :
    Renders stray g (Act.paint stray g fb (.blacken count)) (grid.draw g.pps (.blacken count)) := by
  intro px py hpx hpy
  have hpos : 0 < g.pps.toNat := by omega
  have hrows : ∀ y x, x < g.pps.toNat → (y * g.pps.toNat + x < count.toNat ↔ y < rows) := by
    intro y x hx
    rw [hcount]
    constructor
    · intro hlt
      exact lt_of_mul_lt_mul_right (Nat.lt_of_le_of_lt (Nat.le_add_right _ x) hlt) (Nat.zero_le _)
    · intro hlt
      calc y * g.pps.toNat + x < y * g.pps.toNat + g.pps.toNat := Nat.add_lt_add_left hx _
        _ = (y + 1) * g.pps.toNat := (Nat.succ_mul y _).symm
        _ ≤ rows * g.pps.toNat := Nat.mul_le_mul_right _ hlt
  have hfirst : ∀ y : Nat, (y : Int) * g.pps.toNat < count.toNat ↔ y < rows := by
    intro y
    rw [← hrows y 0 hpos, Nat.add_zero, ← Int.natCast_mul]
    exact Int.ofNat_lt
  rw [paint_blacken, h px py hpx hpy, if_congr (hrows py px hpx) rfl rfl]
  simp only [Grid.pixel, Grid.draw_blacken]
  by_cases hcell : px / 9 ≤ 80 ∧ px % 9 < 8 ∧ py % 10 < 8
  · have hsame : py / 10 * 10 < rows ↔ py < rows := by omega
    rw [if_pos hcell, if_pos hcell, if_congr ((hfirst (py / 10 * 10)).trans hsame) rfl rfl]
    split <;> rfl
  · rw [if_neg hcell, if_neg hcell]
    exact ite_self 0

/-- **Step lemma.** -/
theorem Renders.act (h : Renders stray g fb grid) (hg : g.Regular) {act : Act}
    (haligned : act.Aligned g) (hscreen : act.OnScreen g) :
    Renders stray g (Act.paint stray g fb act) (grid.draw g.pps act) := by
  have hwide := hg.wide
  cases act with
  | blacken count =>
      rcases haligned with rfl | rfl
      · refine h.blacken 768 ?_ (Or.inl rfl)
        rw [UInt32.toNat_mul]
        exact Nat.mod_eq_of_lt hg.clear
      · refine h.blacken g.height.toNat ?_ (Or.inr (Nat.le_refl _))
        rw [UInt32.toNat_mul]
        exact Nat.mod_eq_of_lt hg.size
  | char x y c color =>
      obtain ⟨hcol, hright, hrow, htop⟩ := haligned
      obtain ⟨hleft, hbottom⟩ := hscreen
      obtain ⟨a, rfl⟩ := Int.eq_ofNat_of_zero_le hleft
      obtain ⟨b, rfl⟩ := Int.eq_ofNat_of_zero_le htop
      exact h.char hg.size (by omega) (by omega) (by omega) (by omega) (by omega) c color
  | erase x y =>
      obtain ⟨hcol, hright, hrow, htop⟩ := haligned
      obtain ⟨hleft, hbottom⟩ := hscreen
      obtain ⟨a, rfl⟩ := Int.eq_ofNat_of_zero_le hleft
      obtain ⟨b, rfl⟩ := Int.eq_ofNat_of_zero_le htop
      exact h.erase hg.size (by omega) (by omega) (by omega) (by omega)

/-- **Run lemma.** -/
theorem Renders.acts (h : Renders stray g fb grid) (hg : g.Regular) {acts : List Act}
    (haligned : ∀ act ∈ acts, act.Aligned g) (hscreen : ∀ act ∈ acts, act.OnScreen g) :
    Renders stray g (paintAll stray g fb acts) (grid.drawAll g.pps acts) := by
  induction acts generalizing fb grid with
  | nil => exact h
  | cons act rest ih =>
      have hact := h.act hg (haligned act List.mem_cons_self) (hscreen act List.mem_cons_self)
      exact ih hact (fun a ha => haligned a (List.mem_cons_of_mem act ha))
        (fun a ha => hscreen a (List.mem_cons_of_mem act ha))

/-- Blackening the screen makes it blank, whatever was on it. -/
theorem renders_blank (hsize : g.size < 4294967296) (fb : Picture) :
    Renders stray g (Act.paint stray g fb (.blacken (g.height * g.pps))) blankGrid := by
  intro px py hpx hpy
  have hcount : (g.height * g.pps).toNat = g.size := by
    rw [UInt32.toNat_mul]
    exact Nat.mod_eq_of_lt hsize
  have hrow : (py + 1) * g.pps.toNat ≤ g.size := Nat.mul_le_mul_right _ hpy
  rw [Nat.add_mul] at hrow
  rw [paint_blacken, hcount, if_pos (by omega)]
  exact (ite_self 0).symm

/-- Blackened first, the screen shows the grid of what is drawn. -/
theorem renders_from_blank (hg : g.Regular) (acts : List Act)
    (haligned : ∀ act ∈ .blacken (g.height * g.pps) :: acts, act.Aligned g)
    (hscreen : ∀ act ∈ .blacken (g.height * g.pps) :: acts, act.OnScreen g) (fb : Picture) :
    Renders stray g (paintAll stray g fb (.blacken (g.height * g.pps) :: acts))
      (blankGrid.drawAll g.pps (.blacken (g.height * g.pps) :: acts)) := by
  have hblank : blankGrid.draw g.pps (.blacken (g.height * g.pps)) = blankGrid := by
    funext x y
    exact ite_self []
  rw [paintAll, List.foldl_cons, Grid.drawAll, List.foldl_cons, hblank]
  exact (renders_blank hg.size fb).acts hg
    (fun act hact => haligned act (List.mem_cons_of_mem _ hact))
    (fun act hact => hscreen act (List.mem_cons_of_mem _ hact))

end Step

/-! ## The kernel keeps to the grid -/

/-- The cursor is at a cell, and so was every step. -/
structure Console.Aligned (g : Geometry) (con : Console) : Prop where
  right : con.cursorX ≤ 80
  row : 10 ∣ con.cursorY
  top : 0 ≤ con.cursorY
  acts : ∀ act ∈ con.acts, act.Aligned g

theorem Console.Aligned.event {g : Geometry} (con : Console) (e : Event) (h : con.Aligned g) :
    (e.apply g.pps con).Aligned g := by
  obtain ⟨hright, hrow, htop, hacts⟩ := h
  cases e with
  | put c =>
      by_cases hline : c = newline
      · have hput : shellPutchar con c = { con with cursorX := 0, cursorY := con.cursorY + 10 } :=
          if_pos hline
        rw [Event.apply, hput]
        exact ⟨by dsimp only; omega, by dsimp only; omega, by dsimp only; omega, hacts⟩
      · have hdrawn : ∀ act ∈ con.acts ++ [.char (con.cursorX * 9) con.cursorY c white],
            act.Aligned g := by
          intro act hact
          rcases List.mem_append.mp hact with hold | hnew
          · exact hacts act hold
          · rw [List.mem_singleton.mp hnew]
            exact ⟨by omega, by omega, hrow, htop⟩
        rw [Event.apply, shellPutchar_eq con hline]
        split
        · exact ⟨by dsimp only; omega, by dsimp only; omega, by dsimp only; omega, hdrawn⟩
        · exact ⟨by dsimp only; omega, hrow, htop, hdrawn⟩
  | back =>
      refine ⟨?_, hrow, htop, ?_⟩
      · change con.cursorX - 1 ≤ 80
        omega
      · intro act hact
        rcases List.mem_append.mp hact with hold | hnew
        · exact hacts act hold
        · rw [List.mem_singleton.mp hnew]
          exact ⟨by dsimp only; omega, by dsimp only; omega, hrow, htop⟩
  | clear =>
      refine ⟨show (0 : Int) ≤ 80 by decide, Int.dvd_zero 10, Int.le_refl 0, ?_⟩
      intro act hact
      rcases List.mem_append.mp hact with hold | hnew
      · exact hacts act hold
      · rw [List.mem_singleton.mp hnew]
        exact Or.inl rfl

theorem drawString_aligned (g : Geometry) {y : Int} (hrow : 10 ∣ y) (htop : 0 ≤ y)
    (str : List UInt8) (hlen : str.length ≤ 80) (color : UInt32) :
    ∀ act ∈ drawString 0 y str color, act.Aligned g := by
  intro act hact
  obtain ⟨i, hi, rfl⟩ := List.mem_mapIdx.mp hact
  exact ⟨by omega, by omega, hrow, htop⟩

section Kernel

variable (K : Kernel)

theorem initialDrawing_aligned : ∀ act ∈ (initialDrawing K).1, act.Aligned K.screen := by
  have hfirst : ∀ act ∈ Act.blacken (K.screen.height * K.screen.pps) ::
      drawString 0 0 (ascii "SimplrOS") white, act.Aligned K.screen := by
    intro act hact
    rcases List.mem_cons.mp hact with rfl | hbanner
    · exact Or.inr rfl
    · exact drawString_aligned K.screen (by decide) (by decide) _ (by decide) white act hbanner
  have hmore : ∀ {acts more : List Act}, (∀ act ∈ acts, act.Aligned K.screen) →
      (∀ act ∈ more, act.Aligned K.screen) → ∀ act ∈ acts ++ more, act.Aligned K.screen := by
    intro acts more hacts hmore act hact
    exact (List.mem_append.mp hact).elim (hacts act) (hmore act)
  rw [initialDrawing]
  dsimp only
  split
  · have hok := hmore hfirst
      (drawString_aligned K.screen (y := 10) (by decide) (by decide) (ascii "AHCI: OK")
        (by decide) green)
    split
    · exact hmore hok (drawString_aligned K.screen (by decide) (by decide) _ (by decide) green)
    · exact hmore hok (drawString_aligned K.screen (by decide) (by decide) _ (by decide) red)
  · exact hmore hfirst (drawString_aligned K.screen (by decide) (by decide) _ (by decide) red)

theorem shellActs_aligned (keys : List UInt8) :
    ∀ act ∈ shellActs K keys, act.Aligned K.screen := by
  rw [shellActs]
  split
  · rename_i fs t _
    have hstart : Console.Aligned K.screen ⟨0, 40, []⟩ :=
      ⟨by decide, by decide, by decide, fun act hact => absurd hact List.not_mem_nil⟩
    exact ((shellRun_after K fs t ⟨0, 40, []⟩ keys).keeps Console.Aligned.event hstart).acts
  · exact fun act hact => absurd hact List.not_mem_nil

theorem kernelMain_aligned (keys : List UInt8) :
    ∀ act ∈ kernelMain K keys, act.Aligned K.screen := by
  intro act hact
  exact (List.mem_append.mp hact).elim (initialDrawing_aligned K act) (shellActs_aligned K keys act)

theorem kernelMain_blackens (keys : List UInt8) : ∃ acts, kernelMain K keys =
    .blacken (K.screen.height * K.screen.pps) :: acts := by
  rw [kernelMain, initialDrawing]
  dsimp only
  split
  · split
    · exact ⟨_, rfl⟩
    · exact ⟨_, rfl⟩
  · exact ⟨_, rfl⟩

end Kernel

/-- **The screen is the grid.**  As long as the drawing stays on the screen, every pixel
has the color that the characters in its cell give it, or is black. -/
theorem kernelMain_renders {K : Kernel} (hg : K.screen.Regular) (keys : List UInt8)
    (hscreen : ∀ act ∈ kernelMain K keys, act.OnScreen K.screen) (fb : Picture) :
    Renders K.stray K.screen (paintAll K.stray K.screen fb (kernelMain K keys))
      (blankGrid.drawAll K.screen.pps (kernelMain K keys)) := by
  have haligned := kernelMain_aligned K keys
  obtain ⟨acts, hacts⟩ := kernelMain_blackens K keys
  rw [hacts] at haligned hscreen ⊢
  exact renders_from_blank hg acts haligned hscreen fb

/-- Typing `h` on a screen of 100 lines. -/
theorem kernelMain_renders_h :
    Renders (sampleKernel 100).stray (sampleKernel 100).screen
      (paintAll (sampleKernel 100).stray (sampleKernel 100).screen (fun _ => white)
        (kernelMain (sampleKernel 100) [0x23]))
      (blankGrid.drawAll 736 (kernelMain (sampleKernel 100) [0x23])) :=
  kernelMain_renders (K := sampleKernel 100) ⟨by decide, by decide, by decide⟩ [0x23]
    (by decide +kernel) fun _ => white

end Shell
