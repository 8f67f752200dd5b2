import SimplrOS.Screen

/-!
# The framebuffer as a memory

The drawing steps as stores of pixels.  A step changes the pixels that it stores and no
others, and two pixels on the lines of the screen have two indices.
-/

namespace Shell

/-! ## The framebuffer -/

/-- The framebuffer by index. -/
abbrev Picture := Nat → UInt32

/-- The framebuffer after an access. -/
def Access.store (fb : Picture) : Access → Picture
  | .glyph _ => fb
  | .pixel index color => Function.update fb index.toNat color

/-- The framebuffer after a drawing step. -/
def Act.paint (stray : UInt8 → Nat → UInt8) (g : Geometry) (fb : Picture) (act : Act) : Picture :=
  (act.accesses stray g).foldl Access.store fb

/-- The framebuffer after some drawing steps. -/
def paintAll (stray : UInt8 → Nat → UInt8) (g : Geometry) (fb : Picture) (acts : List Act) :
    Picture :=
  acts.foldl (Act.paint stray g) fb

/-! ## Stores -/

/-- A pixel that is not stored to keeps its colour. -/
theorem foldl_store_of_out {accesses : List Access} (fb : Picture) {n : Nat}
    (h : ∀ i color, Access.pixel i color ∈ accesses → i.toNat ≠ n) :
    accesses.foldl Access.store fb n = fb n := by
  induction accesses generalizing fb with
  | nil => rfl
  | cons access rest ih =>
      rw [List.foldl_cons, ih _ fun i color hmem => h i color (List.mem_cons_of_mem _ hmem)]
      cases access with
      | glyph index => rfl
      | pixel i color =>
          have hne := h i color List.mem_cons_self
          exact Function.update_of_ne (Ne.symm hne) color fb

/-- Stores of one color. -/
theorem foldl_store_of_mem {accesses : List Access} (fb : Picture) {n : Nat} {color : UInt32}
    (hcolor : ∀ i color', Access.pixel i color' ∈ accesses → color' = color)
    {i : UInt32} (hmem : Access.pixel i color ∈ accesses) (hi : i.toNat = n) :
    accesses.foldl Access.store fb n = color := by
  induction accesses generalizing fb with
  | nil => exact absurd hmem List.not_mem_nil
  | cons access rest ih =>
      have hrest : ∀ i color', Access.pixel i color' ∈ rest → color' = color :=
        fun i color' h => hcolor i color' (List.mem_cons_of_mem _ h)
      rw [List.foldl_cons]
      by_cases hlater : Access.pixel i color ∈ rest
      · exact ih _ hrest hlater
      · rcases List.mem_cons.mp hmem with rfl | hin
        · by_cases hagain : ∃ j color', Access.pixel j color' ∈ rest ∧ j.toNat = n
          · obtain ⟨j, color', hj, hjn⟩ := hagain
            have hsame : j = i := UInt32.toNat_inj.mp (hjn.trans hi.symm)
            have hone := hrest j color' hj
            rw [hone, hsame] at hj
            exact absurd hj hlater
          · rw [foldl_store_of_out _ fun j color' hj hjn => hagain ⟨j, color', hj, hjn⟩]
            have hset : Access.store fb (.pixel i color) i.toNat = color := by
              rw [Access.store, Function.update_self]
            rw [hi] at hset
            exact hset
        · exact absurd hin hlater

section Steps

variable {stray : UInt8 → Nat → UInt8} {g : Geometry} {x y : Int} {c : UInt8} {color : UInt32}

/-- A character stores its colour to the inked pixels of its cell. -/
theorem mem_drawChar {i color' : UInt32} :
    Access.pixel i color' ∈ drawChar stray g.pps x y c color ↔
      color' = color ∧ ∃ p ∈ cell, inked (glyphRow stray c p.1) p.2 = true ∧
        i = pixelIndex g.pps (x + p.2) (y + p.1) := by
  constructor
  · intro hin
    rcases List.mem_cons.mp hin with hglyph | hpixel
    · cases hglyph
    · obtain ⟨p, hp, heq⟩ := List.mem_map.mp hpixel
      obtain ⟨hcell, hink⟩ := List.mem_filter.mp hp
      cases heq
      exact ⟨rfl, p, hcell, hink, rfl⟩
  · intro h
    obtain ⟨rfl, p, hcell, hink, rfl⟩ := h
    exact List.mem_cons_of_mem _
      (List.mem_map.mpr ⟨p, List.mem_filter.mpr ⟨hcell, hink⟩, rfl⟩)

/-- Erasing stores black to all pixels of the cell. -/
theorem mem_eraseCell {i color' : UInt32} :
    Access.pixel i color' ∈ eraseCell g.pps x y ↔
      color' = 0 ∧ ∃ p ∈ cell, i = pixelIndex g.pps (x + p.2) (y + p.1) := by
  constructor
  · intro hin
    obtain ⟨p, hp, heq⟩ := List.mem_map.mp hin
    cases heq
    exact ⟨rfl, p, hp, rfl⟩
  · intro h
    obtain ⟨rfl, p, hp, rfl⟩ := h
    exact List.mem_map.mpr ⟨p, hp, rfl⟩

/-- An inked pixel has the color of the character. -/
theorem paint_char_ink (fb : Picture) {row col : Nat} (hp : (row, col) ∈ cell)
    (hink : inked (glyphRow stray c row) col = true) :
    Act.paint stray g fb (.char x y c color) (pixelIndex g.pps (x + col) (y + row)).toNat = color :=
  foldl_store_of_mem fb (fun _ _ hin => (mem_drawChar.mp hin).1)
    (mem_drawChar.mpr ⟨rfl, (row, col), hp, hink, rfl⟩) rfl

/-- All other pixels are kept. -/
theorem paint_char_out (fb : Picture) {n : Nat}
    (h : ∀ p ∈ cell, inked (glyphRow stray c p.1) p.2 = true →
      (pixelIndex g.pps (x + p.2) (y + p.1)).toNat ≠ n) :
    Act.paint stray g fb (.char x y c color) n = fb n := by
  apply foldl_store_of_out
  intro i color' hin
  obtain ⟨_, p, hp, hink, rfl⟩ := mem_drawChar.mp hin
  exact h p hp hink

/-- An erased pixel is black. -/
theorem paint_erase_cell (stray : UInt8 → Nat → UInt8) (fb : Picture) {row col : Nat}
    (hp : (row, col) ∈ cell) :
    Act.paint stray g fb (.erase x y) (pixelIndex g.pps (x + col) (y + row)).toNat = 0 :=
  foldl_store_of_mem fb (fun _ _ hin => (mem_eraseCell.mp hin).1)
    (mem_eraseCell.mpr ⟨rfl, (row, col), hp, rfl⟩) rfl

/-- All other pixels are kept. -/
theorem paint_erase_out (stray : UInt8 → Nat → UInt8) (fb : Picture) {n : Nat}
    (h : ∀ p ∈ cell, (pixelIndex g.pps (x + p.2) (y + p.1)).toNat ≠ n) :
    Act.paint stray g fb (.erase x y) n = fb n := by
  apply foldl_store_of_out
  intro i color' hin
  obtain ⟨_, p, hp, rfl⟩ := mem_eraseCell.mp hin
  exact h p hp

/-- A row and a column are told apart by the index. -/
theorem index_inj {pps x x' y y' : Nat} (hx : x < pps) (hx' : x' < pps)
    (h : y * pps + x = y' * pps + x') : x = x' ∧ y = y' := by
  have hpos : 0 < pps := by omega
  have hmod := congrArg (· % pps) h
  have hdiv := congrArg (· / pps) h
  simp only [Nat.mul_add_mod_self_right, Nat.mod_eq_of_lt hx, Nat.mod_eq_of_lt hx'] at hmod
  simp only [Nat.mul_comm _ pps, Nat.mul_add_div hpos, Nat.div_eq_of_lt hx,
    Nat.div_eq_of_lt hx'] at hdiv
  exact ⟨hmod, by omega⟩

/-- A pixel on a line of the screen: its index does not wrap. -/
structure OnLine (g : Geometry) (x y : Int) : Prop where
  left : 0 ≤ x
  right : x < g.pps.toNat
  top : 0 ≤ y
  bottom : (y + 1) * g.pps.toNat ≤ 4294967296

/-- The index of a pixel on its scan line does not wrap. -/
theorem OnLine.index (h : OnLine g x y) :
    ((pixelIndex g.pps x y).toNat : Int) = y * g.pps.toNat + x := by
  obtain ⟨hleft, hright, htop, hbottom⟩ := h
  have hrow : 0 ≤ y * (g.pps.toNat : Int) := Int.mul_nonneg htop (by omega)
  rw [Int.add_mul, Int.one_mul] at hbottom
  rw [pixelIndex_toNat, Int.emod_eq_of_lt (by omega) (by omega)]

/-- **Pixels are told apart by their indices.** -/
theorem OnLine.inj {x' y' : Int} (h : OnLine g x y) (h' : OnLine g x' y')
    (heq : (pixelIndex g.pps x y).toNat = (pixelIndex g.pps x' y').toNat) : x = x' ∧ y = y' := by
  have hindex := h.index
  have hindex' := h'.index
  obtain ⟨hleft, hright, htop, _⟩ := h
  obtain ⟨hleft', hright', htop', _⟩ := h'
  lift x to Nat using hleft
  lift y to Nat using htop
  lift x' to Nat using hleft'
  lift y' to Nat using htop'
  rw [heq, hindex'] at hindex
  have hboth := index_inj (Int.ofNat_lt.mp hright) (Int.ofNat_lt.mp hright')
    (by exact_mod_cast hindex.symm)
  exact ⟨congrArg Nat.cast hboth.1, congrArg Nat.cast hboth.2⟩

end Steps

end Shell
