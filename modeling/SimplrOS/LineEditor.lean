import SimplrOS.CommandLine
import SimplrOS.Framebuffer

/-!
# The line on the screen

`shell_readline` echoes a character through `shell_putchar`, which goes on to the
next row behind column 80, and takes it back with code of its own, which does not
return to the row before.  Up to the first time a character is deleted right
after a wrap, the screen shows exactly the line: the cursor is where printing the
line would put it, the pixels of its characters are white, those of deleted
characters are black again, and no other pixel has changed.

This takes a scan line that has room for 81 cells.  On a narrower one the cells at the
right end reach into the next line.
-/

namespace Shell

/-! ## The editor and its screen -/

/-- The screen and the line between two keys. -/
structure Editor where
  con : Console
  input : List UInt8

/-- One round of the loop of `shell_readline`, for a key that does not end the
line. -/
def editorKey (e : Editor) (c : UInt8) : Editor :=
  if c = 0 then e
  else if c = backspace then
    if e.input.length > 0 then ⟨shellBackspace e.con, e.input.dropLast⟩ else e
  else if e.input.length < shellMaxInput - 1 then ⟨shellPutchar e.con c, e.input ++ [c]⟩
  else e

/-- The editor after the given keys, with the drawing steps made since the line was
begun at `x₀`, `y₀`. -/
def editor (x₀ y₀ : Int) (keys : List UInt8) : Editor :=
  keys.foldl editorKey ⟨⟨x₀, y₀, []⟩, []⟩

/-! ## What is to be shown -/

/-- Where the cursor is. -/
def Console.cursor (con : Console) : Int × Int := (con.cursorX, con.cursorY)

/-- The cursor in front of character number `k` of a line begun at `x₀`, `y₀`. -/
def lineCursor (x₀ y₀ : Int) (k : Nat) : Int × Int := ((x₀ + k) % 81, y₀ + 10 * ((x₀ + k) / 81))

/-- The cell of that character. -/
def lineCell (x₀ y₀ : Int) (k : Nat) : Int × Int :=
  ((lineCursor x₀ y₀ k).1 * 9, (lineCursor x₀ y₀ k).2)

/-- One of the keys has deleted character number `k`. -/
def Deleted (keys : List UInt8) (k : Nat) : Prop :=
  ∃ earlier, earlier ++ [backspace] <+: keys ∧ (editLine earlier).length = k + 1

/-- The pixel of that cell at `row` and `col`. -/
def linePixel (g : Geometry) (x₀ y₀ : Int) (k row col : Nat) : Nat :=
  (pixelIndex g.pps ((lineCell x₀ y₀ k).1 + col) ((lineCell x₀ y₀ k).2 + row)).toNat

/-- Character number `k` of the line has ink at `row` and `col`. -/
def LineInk (stray : UInt8 → Nat → UInt8) (input : List UInt8) (k row col : Nat) : Prop :=
  ∃ c, input[k]? = some c ∧ inked (glyphRow stray c row) col = true

/-- The screen shows the line, which was begun on the picture `fb`. -/
structure Shown (stray : UInt8 → Nat → UInt8) (g : Geometry) (fb : Picture) (x₀ y₀ : Int)
    (keys : List UInt8) (e : Editor) : Prop where
  column : 0 ≤ e.con.cursorX ∧ e.con.cursorX ≤ 80
  cursor : e.con.cursor = (shellPrint ⟨x₀, y₀, []⟩ e.input).cursor
  /-- the characters of the line -/
  ink : ∀ k row col, row < 8 → col < 8 → LineInk stray e.input k row col →
    paintAll stray g fb e.con.acts (linePixel g x₀ y₀ k row col) = white
  /-- the cells of deleted characters -/
  erased : ∀ k row col, row < 8 → col < 8 → ¬ LineInk stray e.input k row col → Deleted keys k →
    paintAll stray g fb e.con.acts (linePixel g x₀ y₀ k row col) = 0
  /-- everything else -/
  kept : ∀ n, (∀ k row col, row < 8 → col < 8 → linePixel g x₀ y₀ k row col = n →
      ¬ LineInk stray e.input k row col ∧ ¬ Deleted keys k) →
    paintAll stray g fb e.con.acts n = fb n
  /-- the prompt and what was printed before it -/
  earlier : ∀ (x y : Int) (row col : Nat), 0 ≤ x → x ≤ 80 → 0 ≤ y →
    (y + 8 ≤ y₀ ∨ (y = y₀ ∧ x < x₀)) → row < 8 → col < 8 →
      paintAll stray g fb e.con.acts (pixelIndex g.pps (x * 9 + col) (y + row)).toNat =
        fb (pixelIndex g.pps (x * 9 + col) (y + row)).toNat

/-- A scan line holds 81 cells, and the line of 255 characters begun at `y₀` lies on scan
lines whose pixels have different indices. -/
structure Roomy (g : Geometry) (y₀ : Int) : Prop where
  wide : 728 ≤ g.pps.toNat
  top : 0 ≤ y₀
  bottom : (y₀ + 48) * g.pps.toNat ≤ 4294967296

/-- No character is deleted while the cursor is at the left end of a row. -/
def NeverUnwraps (x₀ : Int) (keys : List UInt8) : Prop :=
  ∀ earlier, earlier ++ [backspace] <+: keys → editLine earlier ≠ [] →
    (x₀ + (editLine earlier).length) % 81 ≠ 0

/-! ## The line -/

theorem editorKey_input (e : Editor) (c : UInt8) :
    (editorKey e c).input = editKey e.input c := by
  unfold editorKey editKey
  split
  · rfl
  · split
    · split
      · rfl
      · rename_i hempty
        have hnil : e.input = [] := List.length_eq_zero_iff.mp (by omega)
        rw [hnil]
        rfl
    · split <;> rfl

theorem editor_append (x₀ y₀ : Int) (keys : List UInt8) (c : UInt8) :
    editor x₀ y₀ (keys ++ [c]) = editorKey (editor x₀ y₀ keys) c := List.foldl_concat ..

theorem editLine_append (keys : List UInt8) (c : UInt8) :
    editLine (keys ++ [c]) = editKey (editLine keys) c := List.foldl_concat ..

/-- The editor's text is the edited line. -/
theorem editor_input (x₀ y₀ : Int) (keys : List UInt8) :
    (editor x₀ y₀ keys).input = editLine keys := by
  induction keys using List.reverseRecOn with
  | nil => rfl
  | append_singleton keys c ih => rw [editor_append, editLine_append, editorKey_input, ih]

/-- The line is made of the keys. -/
theorem mem_of_mem_editKey {text : List UInt8} {c d : UInt8} (h : d ∈ editKey text c) :
    d ∈ text ∨ d = c := by
  unfold editKey at h
  split at h
  · exact Or.inl h
  · split at h
    · exact Or.inl (List.dropLast_subset text h)
    · split at h
      · rcases List.mem_append.mp h with h | h
        · exact Or.inl h
        · exact Or.inr (List.mem_singleton.mp h)
      · exact Or.inl h

theorem mem_of_mem_editLine {keys : List UInt8} {d : UInt8} (h : d ∈ editLine keys) : d ∈ keys := by
  induction keys using List.reverseRecOn with
  | nil => exact h
  | append_singleton keys c ih =>
      rw [editLine_append] at h
      rcases mem_of_mem_editKey h with hold | rfl
      · exact List.mem_append_left _ (ih hold)
      · exact List.mem_append_right _ (List.mem_singleton_self _)

/-- The keys before the newline put none into the line. -/
theorem newline_not_mem_editLine {keys : List UInt8} (hkeys : newline ∉ keys) :
    newline ∉ editLine keys := fun hmem => hkeys (mem_of_mem_editLine hmem)

/-- Each key adds at most one character. -/
theorem length_editLine_le (keys : List UInt8) : (editLine keys).length ≤ keys.length := by
  induction keys using List.reverseRecOn with
  | nil => exact Nat.le_refl 0
  | append_singleton keys c ih =>
      rw [editLine_append, List.length_append, List.length_singleton]
      unfold editKey
      split
      · omega
      · split
        · rw [List.length_dropLast]
          omega
        · split
          · rw [List.length_append, List.length_singleton]
            omega
          · omega

/-! ## The cursor -/

variable {x₀ y₀ : Int}

/-- `shell_putchar` for a character. -/
theorem shellPutchar_eq (con : Console) {c : UInt8} (hc : c ≠ newline) :
    shellPutchar con c =
      if 80 < con.cursorX + 1 then
        ⟨0, con.cursorY + 10, con.acts ++ [.char (con.cursorX * 9) con.cursorY c white]⟩
      else
        ⟨con.cursorX + 1, con.cursorY,
          con.acts ++ [.char (con.cursorX * 9) con.cursorY c white]⟩ := by
  rw [shellPutchar, if_neg hc]
  rfl

/-- The wrap of `shell_putchar` is division by 81. -/
theorem shellPutchar_lineCursor {con : Console} {c : UInt8} (hc : c ≠ newline) {k : Nat}
    (h : con.cursor = lineCursor x₀ y₀ k) :
    (shellPutchar con c).cursor = lineCursor x₀ y₀ (k + 1) := by
  have hcolumn : con.cursorX = (x₀ + k) % 81 := congrArg Prod.fst h
  have hrow : con.cursorY = y₀ + 10 * ((x₀ + k) / 81) := congrArg Prod.snd h
  rw [shellPutchar_eq con hc]
  simp only [lineCursor, Nat.cast_add, Nat.cast_one]
  by_cases hwrap : 80 < con.cursorX + 1
  · rw [if_pos hwrap]
    refine Prod.ext ?_ ?_
    · simp only [Console.cursor]
      omega
    · simp only [Console.cursor]
      omega
  · rw [if_neg hwrap]
    refine Prod.ext ?_ ?_
    · simp only [Console.cursor]
      omega
    · simp only [Console.cursor]
      omega

/-- A character that is not the first of a row is one column behind the last. -/
theorem lineCursor_pred {k : Nat} (h : (x₀ + (k + 1 : Nat)) % 81 ≠ 0) :
    lineCursor x₀ y₀ k =
      ((lineCursor x₀ y₀ (k + 1)).1 - 1, (lineCursor x₀ y₀ (k + 1)).2) := by
  rw [Nat.cast_add, Nat.cast_one] at h
  simp only [lineCursor, Nat.cast_add, Nat.cast_one]
  refine Prod.ext ?_ ?_
  · dsimp only
    omega
  · dsimp only
    omega

/-- **Where a line ends.** -/
theorem shellPrint_cursor (hx : 0 ≤ x₀ ∧ x₀ ≤ 80) {text : List UInt8} (htext : newline ∉ text) :
    (shellPrint ⟨x₀, y₀, []⟩ text).cursor = lineCursor x₀ y₀ text.length := by
  induction text using List.reverseRecOn with
  | nil =>
      refine Prod.ext ?_ ?_
      · simp only [shellPrint, List.foldl_nil, Console.cursor, lineCursor, List.length_nil,
          Nat.cast_zero]
        omega
      · simp only [shellPrint, List.foldl_nil, Console.cursor, lineCursor, List.length_nil,
          Nat.cast_zero]
        omega
  | append_singleton text c ih =>
      rw [List.mem_append, not_or, List.mem_singleton] at htext
      rw [shellPrint, List.foldl_concat, List.length_append, List.length_singleton]
      exact shellPutchar_lineCursor (Ne.symm htext.2) (ih htext.1)

/-! ## The pixels -/

section Pixels

variable {stray : UInt8 → Nat → UInt8} {g : Geometry} {fb : Picture}

theorem length_editKey_le {text : List UInt8} (h : text.length ≤ 255) (c : UInt8) :
    (editKey text c).length ≤ 255 := by
  have hmax : shellMaxInput - 1 = 255 := rfl
  unfold editKey
  split
  · exact h
  · split
    · rw [List.length_dropLast]
      omega
    · split
      · rw [List.length_append, List.length_singleton]
        omega
      · exact h

/-- So the edited line has at most 255 bytes, whatever was typed. -/
theorem length_editLine_max (keys : List UInt8) : (editLine keys).length ≤ 255 := by
  induction keys using List.reverseRecOn with
  | nil => exact Nat.zero_le 255
  | append_singleton keys c ih =>
      rw [editLine_append]
      exact length_editKey_le ih c

theorem Deleted.lt {keys : List UInt8} {k : Nat} (h : Deleted keys k) : k < 255 := by
  obtain ⟨earlier, _, hlen⟩ := h
  have hmax := length_editLine_max earlier
  omega

theorem LineInk.lt {input : List UInt8} {k row col : Nat} (h : LineInk stray input k row col) :
    k < input.length := by
  obtain ⟨c, hc, _⟩ := h
  exact (List.getElem?_eq_some_iff.mp hc).1

/-- Every pixel of the line's three rows of cells is on the screen. -/
theorem Roomy.onLine (h : Roomy g y₀) {x y : Int} (hx : 0 ≤ x ∧ x < 728)
    (hy : 0 ≤ y ∧ y < y₀ + 48) : OnLine g x y := by
  have hwide := h.wide
  refine ⟨hx.1, by omega, hy.1, ?_⟩
  calc (y + 1) * (g.pps.toNat : Int) ≤ (y₀ + 48) * g.pps.toNat :=
        Int.mul_le_mul_of_nonneg_right (by omega) (by omega)
    _ ≤ 4294967296 := h.bottom

/-- The pixels of the line are on four lines of text. -/
theorem Roomy.linePixel_onLine (h : Roomy g y₀) (hx : 0 ≤ x₀ ∧ x₀ ≤ 80) {k row col : Nat}
    (hk : k < 255) (hrow : row < 8) (hcol : col < 8) :
    OnLine g ((lineCell x₀ y₀ k).1 + col) ((lineCell x₀ y₀ k).2 + row) := by
  have htop := h.top
  simp only [lineCell, lineCursor]
  exact h.onLine (by omega) (by omega)

/-- The characters of a line have pixels of their own. -/
theorem Roomy.linePixel_inj (h : Roomy g y₀) (hx : 0 ≤ x₀ ∧ x₀ ≤ 80) {j k row row' col col' : Nat}
    (hj : j < 255) (hk : k < 255) (hrow : row < 8) (hrow' : row' < 8) (hcol : col < 8)
    (hcol' : col' < 8) (heq : linePixel g x₀ y₀ j row col = linePixel g x₀ y₀ k row' col') :
    j = k ∧ row = row' ∧ col = col' := by
  obtain ⟨hcolumn, hline⟩ := (h.linePixel_onLine hx hj hrow hcol).inj
    (h.linePixel_onLine hx hk hrow' hcol') heq
  simp only [lineCell, lineCursor] at hcolumn hline
  omega

/-- They are not those of the cells before the line. -/
theorem Roomy.linePixel_earlier (h : Roomy g y₀) (hx : 0 ≤ x₀ ∧ x₀ ≤ 80) {x y : Int}
    {k row row' col col' : Nat} (hk : k < 255) (hleft : 0 ≤ x) (hright : x ≤ 80) (htop : 0 ≤ y)
    (hbefore : y + 8 ≤ y₀ ∨ (y = y₀ ∧ x < x₀)) (hrow : row < 8) (hrow' : row' < 8)
    (hcol : col < 8) (hcol' : col' < 8) :
    linePixel g x₀ y₀ k row col ≠ (pixelIndex g.pps (x * 9 + col') (y + row')).toNat := by
  intro heq
  have hon : OnLine g (x * 9 + col') (y + row') := h.onLine (by omega) (by omega)
  obtain ⟨hcolumn, hline⟩ := (h.linePixel_onLine hx hk hrow hcol).inj hon heq
  simp only [lineCell, lineCursor] at hcolumn hline
  omega

/-- What is shown, without the prompt: its pixels are not those of the line. -/
theorem Roomy.shown (h : Roomy g y₀) (hx : 0 ≤ x₀ ∧ x₀ ≤ 80) {keys : List UInt8} {e : Editor}
    (hline : e.input = editLine keys)
    (hcolumn : 0 ≤ e.con.cursorX ∧ e.con.cursorX ≤ 80)
    (hcursor : e.con.cursor = (shellPrint ⟨x₀, y₀, []⟩ e.input).cursor)
    (hink : ∀ k row col, row < 8 → col < 8 → LineInk stray e.input k row col →
      paintAll stray g fb e.con.acts (linePixel g x₀ y₀ k row col) = white)
    (herased : ∀ k row col, row < 8 → col < 8 → ¬ LineInk stray e.input k row col →
      Deleted keys k → paintAll stray g fb e.con.acts (linePixel g x₀ y₀ k row col) = 0)
    (hkept : ∀ n, (∀ k row col, row < 8 → col < 8 → linePixel g x₀ y₀ k row col = n →
        ¬ LineInk stray e.input k row col ∧ ¬ Deleted keys k) →
      paintAll stray g fb e.con.acts n = fb n) : Shown stray g fb x₀ y₀ keys e where
  column := hcolumn
  cursor := hcursor
  ink := hink
  erased := herased
  kept := hkept
  earlier := by
    intro x y row col hleft hright htop hbefore hrow hcol
    refine hkept _ fun k row' col' hrow' hcol' heq => ⟨fun hinked => ?_, fun hdeleted => ?_⟩
    · have hlt := hinked.lt
      have hmax := length_editLine_max keys
      rw [← hline] at hmax
      exact h.linePixel_earlier hx (by omega) hleft hright htop hbefore hrow' hrow hcol' hcol heq
    · exact h.linePixel_earlier hx hdeleted.lt hleft hright htop hbefore hrow' hrow hcol' hcol heq

theorem paintAll_append (acts : List Act) (act : Act) :
    paintAll stray g fb (acts ++ [act]) = Act.paint stray g (paintAll stray g fb acts) act :=
  List.foldl_concat ..

/-- A character of the line changes no pixel of another. -/
theorem Roomy.paint_char_other (h : Roomy g y₀) (hx : 0 ≤ x₀ ∧ x₀ ≤ 80) (fb : Picture) {x y : Int}
    {c : UInt8} {j k row col : Nat} (hcell : (x, y) = lineCell x₀ y₀ k) (hj : j < 255)
    (hk : k < 255) (hrow : row < 8) (hcol : col < 8)
    (hne : j = k → inked (glyphRow stray c row) col = false) :
    Act.paint stray g fb (.char x y c white) (linePixel g x₀ y₀ j row col) =
      fb (linePixel g x₀ y₀ j row col) := by
  apply paint_char_out
  intro p hp hink heq
  obtain ⟨hprow, hpcol⟩ := mem_cell.mp hp
  obtain ⟨rfl, rfl⟩ := Prod.mk.inj hcell
  obtain ⟨hkj, hrows, hcols⟩ := h.linePixel_inj hx hk hj hprow hrow hpcol hcol heq
  have hblank := hne hkj.symm
  rw [← hrows, ← hcols, hink] at hblank
  cases hblank

/-- An erased cell leaves the pixels of every other cell of the line alone. -/
theorem Roomy.paint_erase_other (h : Roomy g y₀) (hx : 0 ≤ x₀ ∧ x₀ ≤ 80) (fb : Picture) {x y : Int}
    {j k row col : Nat} (hcell : (x, y) = lineCell x₀ y₀ k) (hj : j < 255) (hk : k < 255)
    (hrow : row < 8) (hcol : col < 8) (hne : j ≠ k) :
    Act.paint stray g fb (.erase x y) (linePixel g x₀ y₀ j row col) =
      fb (linePixel g x₀ y₀ j row col) := by
  apply paint_erase_out
  intro p hp heq
  obtain ⟨hprow, hpcol⟩ := mem_cell.mp hp
  obtain ⟨rfl, rfl⟩ := Prod.mk.inj hcell
  exact hne (h.linePixel_inj hx hk hj hprow hrow hpcol hcol heq).1.symm

end Pixels

theorem deleted_append {keys : List UInt8} {c : UInt8} {k : Nat} :
    Deleted (keys ++ [c]) k ↔
      Deleted keys k ∨ (c = backspace ∧ (editLine keys).length = k + 1) := by
  constructor
  · intro hboth
    obtain ⟨earlier, hpre, hlen⟩ := hboth
    rcases List.prefix_concat_iff.mp hpre with heq | hold
    · obtain ⟨rfl, hback⟩ := List.append_inj' heq rfl
      exact Or.inr ⟨(List.singleton_inj.mp hback).symm, hlen⟩
    · exact Or.inl ⟨earlier, hold, hlen⟩
  · intro hcase
    rcases hcase with ⟨earlier, hpre, hlen⟩ | ⟨rfl, hlen⟩
    · exact ⟨earlier, hpre.trans (List.prefix_append _ _), hlen⟩
    · exact ⟨keys, List.prefix_rfl, hlen⟩

/-- A key that deletes nothing adds nothing to what was deleted. -/
theorem deleted_append_of_not {keys : List UInt8} {c : UInt8}
    (h : c ≠ backspace ∨ editLine keys = []) {k : Nat} :
    Deleted (keys ++ [c]) k ↔ Deleted keys k := by
  rw [deleted_append, or_iff_left]
  intro hboth
  obtain ⟨hback, hlen⟩ := hboth
  rcases h with hc | hempty
  · exact hc hback
  · rw [hempty] at hlen
    exact absurd hlen (by simp)

/-- An echoed character is one drawing at the cursor. -/
theorem shellPutchar_acts (con : Console) {c : UInt8} (hc : c ≠ newline) :
    (shellPutchar con c).acts = con.acts ++ [.char (con.cursorX * 9) con.cursorY c white] := by
  rw [shellPutchar_eq con hc]
  split <;> rfl

/-! ## One key -/

section Step

variable {stray : UInt8 → Nat → UInt8} {g : Geometry} {fb : Picture} {keys : List UInt8}
  {e : Editor} {c : UInt8}

/-- Before the first key the line is shown. -/
theorem Shown.start (hx : 0 ≤ x₀ ∧ x₀ ≤ 80) :
    Shown stray g fb x₀ y₀ [] (editor x₀ y₀ []) where
  column := hx
  cursor := rfl
  ink := fun k row col _ _ hink => absurd hink.lt (Nat.not_lt_zero k)
  erased := by
    intro k row col _ _ _ hdeleted
    obtain ⟨earlier, hpre, _⟩ := hdeleted
    exact absurd hpre (by simp)
  kept := fun n _ => rfl
  earlier := fun x y row col _ _ _ _ _ _ => rfl

/-- The cursor is behind the line. -/
theorem Shown.cursor_eq (hx : 0 ≤ x₀ ∧ x₀ ≤ 80) (h : Shown stray g fb x₀ y₀ keys e)
    (hinput : newline ∉ e.input) : e.con.cursor = lineCursor x₀ y₀ e.input.length := by
  rw [h.cursor, shellPrint_cursor hx hinput]

/-- A key that changes nothing. -/
theorem Shown.idle (h : Shown stray g fb x₀ y₀ keys e) (hc : c ≠ backspace ∨ editLine keys = []) :
    Shown stray g fb x₀ y₀ (keys ++ [c]) e where
  column := h.column
  cursor := h.cursor
  ink := h.ink
  erased := fun k row col hrow hcol hink hdeleted =>
    h.erased k row col hrow hcol hink ((deleted_append_of_not hc).mp hdeleted)
  kept := by
    intro n hn
    refine h.kept n fun k row col hrow hcol heq => ?_
    obtain ⟨hink, hdeleted⟩ := hn k row col hrow hcol heq
    exact ⟨hink, fun hbefore => hdeleted ((deleted_append_of_not hc).mpr hbefore)⟩
  earlier := h.earlier

/-- The ink of a longer line. -/
theorem lineInk_append {input : List UInt8} {k row col : Nat} :
    LineInk stray (input ++ [c]) k row col ↔
      LineInk stray input k row col ∨
        (k = input.length ∧ inked (glyphRow stray c row) col = true) := by
  unfold LineInk
  rcases Nat.lt_trichotomy k input.length with hlt | rfl | hgt
  · rw [List.getElem?_append_left hlt, or_iff_left fun h => by omega]
  · rw [List.getElem?_concat_length]
    simp
  · have hend : (input ++ [c])[k]? = none := by simp; omega
    have hend' : input[k]? = none := by simp; omega
    rw [hend, hend']
    simp
    omega

/-- **A character is typed.** -/
theorem Shown.typed (hroomy : Roomy g y₀) (hx : 0 ≤ x₀ ∧ x₀ ≤ 80)
    (h : Shown stray g fb x₀ y₀ keys e)
    (hinput : newline ∉ e.input) (hroom : e.input.length < 255) (hc : c ≠ newline)
    (hback : c ≠ backspace) (hnext : e.input ++ [c] = editLine (keys ++ [c])) :
    Shown stray g fb x₀ y₀ (keys ++ [c]) ⟨shellPutchar e.con c, e.input ++ [c]⟩ := by
  have hbehind := h.cursor_eq hx hinput
  have hnew : newline ∉ e.input ++ [c] := by
    rw [List.mem_append, not_or, List.mem_singleton]
    exact ⟨hinput, Ne.symm hc⟩
  have hlen : (e.input ++ [c]).length = e.input.length + 1 := by simp
  have hcursor := shellPutchar_lineCursor hc hbehind
  have hcell : (e.con.cursorX * 9, e.con.cursorY) = lineCell x₀ y₀ e.input.length := by
    rw [lineCell, ← hbehind]
    rfl
  have hcellX : e.con.cursorX * 9 = (lineCell x₀ y₀ e.input.length).1 := congrArg Prod.fst hcell
  have hcellY : e.con.cursorY = (lineCell x₀ y₀ e.input.length).2 := congrArg Prod.snd hcell
  have hsame : ∀ k, Deleted (keys ++ [c]) k ↔ Deleted keys k :=
    fun k => deleted_append_of_not (Or.inl hback)
  refine hroomy.shown hx hnext ?_ ?_ ?_ ?_ ?_
  · have hcolumn : (shellPutchar e.con c).cursorX = (x₀ + (e.input.length + 1 : Nat)) % 81 :=
      congrArg Prod.fst hcursor
    dsimp only
    omega
  · rw [shellPrint_cursor hx hnew, hlen]
    exact hcursor
  · intro k row col hrow hcol hink
    rw [shellPutchar_acts _ hc, paintAll_append]
    rcases lineInk_append.mp hink with hold | ⟨rfl, hinked⟩
    · have hlt := hold.lt
      rw [hroomy.paint_char_other hx _ hcell (by omega) hroom hrow hcol fun heq => by omega]
      exact h.ink k row col hrow hcol hold
    · rw [linePixel, ← hcellX, ← hcellY]
      exact paint_char_ink _ (mem_cell (p := (row, col)).mpr ⟨hrow, hcol⟩) hinked
  · intro k row col hrow hcol hink hdeleted
    have hboth := mt lineInk_append.mpr hink
    rw [not_or] at hboth
    rw [hsame] at hdeleted
    rw [shellPutchar_acts _ hc, paintAll_append,
      hroomy.paint_char_other hx _ hcell hdeleted.lt hroom hrow hcol fun heq =>
        Bool.eq_false_iff.mpr fun hinked => hboth.2 ⟨heq, hinked⟩]
    exact h.erased k row col hrow hcol hboth.1 hdeleted
  · intro n hn
    rw [shellPutchar_acts _ hc, paintAll_append, paint_char_out]
    · refine h.kept n fun k row col hrow hcol heq => ?_
      obtain ⟨hink, hdeleted⟩ := hn k row col hrow hcol heq
      exact ⟨fun hold => hink (lineInk_append.mpr (Or.inl hold)),
        fun hold => hdeleted ((hsame k).mpr hold)⟩
    · intro p hp hinked heq
      obtain ⟨hrow, hcol⟩ := mem_cell.mp hp
      rw [hcellX, hcellY] at heq
      exact (hn e.input.length p.1 p.2 hrow hcol heq).1
        (lineInk_append.mpr (Or.inr ⟨rfl, hinked⟩))

/-- The ink of a shorter line. -/
theorem lineInk_dropLast {input : List UInt8} {k row col : Nat} :
    LineInk stray input.dropLast k row col ↔
      LineInk stray input k row col ∧ k + 1 < input.length := by
  unfold LineInk
  rw [List.getElem?_dropLast]
  by_cases hk : k < input.length - 1
  · rw [if_pos hk]
    exact (and_iff_left (by omega)).symm
  · rw [if_neg hk]
    simp
    omega

/-- **A character is deleted**, behind the left end of its row. -/
theorem Shown.deleted (hroomy : Roomy g y₀) (hx : 0 ≤ x₀ ∧ x₀ ≤ 80)
    (h : Shown stray g fb x₀ y₀ keys e) (hline : e.input = editLine keys)
    (hinput : newline ∉ e.input) (hpos : 0 < e.input.length)
    (hleft : (x₀ + e.input.length) % 81 ≠ 0)
    (hnext : e.input.dropLast = editLine (keys ++ [backspace])) :
    Shown stray g fb x₀ y₀ (keys ++ [backspace]) ⟨shellBackspace e.con, e.input.dropLast⟩ := by
  obtain ⟨m, hm⟩ := Nat.exists_eq_succ_of_ne_zero (Nat.ne_of_gt hpos)
  have hmax := length_editLine_max keys
  rw [← hline] at hmax
  have hbehind := h.cursor_eq hx hinput
  rw [hm] at hbehind hleft
  have hlen : e.input.dropLast.length = m := by
    rw [List.length_dropLast, hm]
    rfl
  have hcursor : (shellBackspace e.con).cursor = lineCursor x₀ y₀ m := by
    rw [lineCursor_pred hleft, ← hbehind]
    rfl
  have hcell : ((e.con.cursorX - 1) * 9, e.con.cursorY) = lineCell x₀ y₀ m := by
    rw [lineCell, ← hcursor]
    rfl
  have hcellX : (e.con.cursorX - 1) * 9 = (lineCell x₀ y₀ m).1 := congrArg Prod.fst hcell
  have hcellY : e.con.cursorY = (lineCell x₀ y₀ m).2 := congrArg Prod.snd hcell
  have hacts : (shellBackspace e.con).acts =
      e.con.acts ++ [.erase ((e.con.cursorX - 1) * 9) e.con.cursorY] := rfl
  have hdeleted : ∀ k, Deleted (keys ++ [backspace]) k ↔ Deleted keys k ∨ k = m := by
    intro k
    rw [deleted_append, ← hline, hm]
    grind
  refine hroomy.shown hx hnext ?_ ?_ ?_ ?_ ?_
  · have hcolumn : (shellBackspace e.con).cursorX = (x₀ + m) % 81 := congrArg Prod.fst hcursor
    dsimp only
    omega
  · rw [shellPrint_cursor hx (fun hmem => hinput (List.dropLast_subset _ hmem)), hlen]
    exact hcursor
  · intro k row col hrow hcol hink
    obtain ⟨hold, hlt⟩ := lineInk_dropLast.mp hink
    rw [hacts, paintAll_append,
      hroomy.paint_erase_other hx _ hcell (by omega) (by omega) hrow hcol (by omega)]
    exact h.ink k row col hrow hcol hold
  · intro k row col hrow hcol hink hgone
    rw [hacts, paintAll_append]
    by_cases hk : k = m
    · subst hk
      rw [linePixel, ← hcellX, ← hcellY]
      exact paint_erase_cell stray _ (mem_cell (p := (row, col)).mpr ⟨hrow, hcol⟩)
    · have hbefore := ((hdeleted k).mp hgone).resolve_right hk
      rw [hroomy.paint_erase_other hx _ hcell hbefore.lt (by omega) hrow hcol hk]
      refine h.erased k row col hrow hcol (fun hold => ?_) hbefore
      have hlt := hold.lt
      exact hink (lineInk_dropLast.mpr ⟨hold, by omega⟩)
  · intro n hn
    rw [hacts, paintAll_append, paint_erase_out]
    · refine h.kept n fun k row col hrow hcol heq => ?_
      obtain ⟨hink, hgone⟩ := hn k row col hrow hcol heq
      rw [hdeleted, not_or] at hgone
      refine ⟨fun hold => ?_, hgone.1⟩
      have hlt := hold.lt
      have hne := hgone.2
      exact hink (lineInk_dropLast.mpr ⟨hold, by omega⟩)
    · intro p hp heq
      obtain ⟨hrow, hcol⟩ := mem_cell.mp hp
      rw [hcellX, hcellY] at heq
      exact (hn m p.1 p.2 hrow hcol heq).2 ((hdeleted m).mpr (Or.inr rfl))

/-- **Step lemma.** -/
theorem Shown.key (hroomy : Roomy g y₀) (hx : 0 ≤ x₀ ∧ x₀ ≤ 80)
    (h : Shown stray g fb x₀ y₀ keys e) (hline : e.input = editLine keys)
    (hkeys : newline ∉ keys) (hc : c ≠ newline)
    (hsafe : c = backspace → editLine keys ≠ [] → (x₀ + (editLine keys).length) % 81 ≠ 0) :
    Shown stray g fb x₀ y₀ (keys ++ [c]) (editorKey e c) := by
  have hinput : newline ∉ e.input := by
    rw [hline]
    exact newline_not_mem_editLine hkeys
  have hnext : (editorKey e c).input = editLine (keys ++ [c]) := by
    rw [editorKey_input, hline, editLine_append]
  unfold editorKey at hnext ⊢
  by_cases hzero : c = 0
  · rw [if_pos hzero]
    refine h.idle (Or.inl ?_)
    rw [hzero]
    decide
  rw [if_neg hzero] at hnext ⊢
  by_cases hback : c = backspace
  · rw [if_pos hback] at hnext ⊢
    subst hback
    by_cases hpos : e.input.length > 0
    · rw [if_pos hpos] at hnext ⊢
      have hne : editLine keys ≠ [] := by
        rw [← hline]
        exact List.length_pos_iff.mp hpos
      have hrow := hsafe rfl hne
      rw [← hline] at hrow
      exact h.deleted hroomy hx hline hinput hpos hrow hnext
    · rw [if_neg hpos]
      refine h.idle (Or.inr ?_)
      rw [← hline]
      exact List.length_eq_zero_iff.mp (by omega)
  · rw [if_neg hback] at hnext ⊢
    by_cases hroom : e.input.length < shellMaxInput - 1
    · rw [if_pos hroom] at hnext ⊢
      exact h.typed hroomy hx hinput hroom hc hback hnext
    · rw [if_neg hroom]
      exact h.idle (Or.inl hback)

end Step

/-! ## Whole lines -/

section Lines

variable {stray : UInt8 → Nat → UInt8} {g : Geometry} {fb : Picture}

/-- **Run lemma.** -/
theorem shown_of_neverUnwraps (hroomy : Roomy g y₀) (hx : 0 ≤ x₀ ∧ x₀ ≤ 80) {keys : List UInt8}
    (hkeys : newline ∉ keys) (h : NeverUnwraps x₀ keys) :
    Shown stray g fb x₀ y₀ keys (editor x₀ y₀ keys) := by
  induction keys using List.reverseRecOn with
  | nil => exact Shown.start hx
  | append_singleton keys c ih =>
      rw [List.mem_append, not_or, List.mem_singleton] at hkeys
      have hshown := ih hkeys.1 fun earlier hpre =>
        h earlier (hpre.trans (List.prefix_append _ _))
      rw [editor_append]
      refine hshown.key hroomy hx (editor_input x₀ y₀ keys) hkeys.1 (Ne.symm hkeys.2) ?_
      intro heq
      subst heq
      exact h keys List.prefix_rfl

/-- A character deleted at the left end of a row takes the cursor off the screen. -/
theorem not_shown_of_unwrap (hx : 0 ≤ x₀ ∧ x₀ ≤ 80) {keys : List UInt8} (hkeys : newline ∉ keys)
    (h : Shown stray g fb x₀ y₀ keys (editor x₀ y₀ keys)) (hne : editLine keys ≠ [])
    (hrow : (x₀ + (editLine keys).length) % 81 = 0) :
    ¬ Shown stray g fb x₀ y₀ (keys ++ [backspace]) (editor x₀ y₀ (keys ++ [backspace])) := by
  intro hafter
  have hline := editor_input x₀ y₀ keys
  have hinput : newline ∉ (editor x₀ y₀ keys).input := by
    rw [hline]
    exact newline_not_mem_editLine hkeys
  have hcolumn : (editor x₀ y₀ keys).con.cursorX = (x₀ + (editLine keys).length) % 81 := by
    rw [← hline]
    exact congrArg Prod.fst (h.cursor_eq hx hinput)
  have hpos : (editor x₀ y₀ keys).input.length > 0 := by
    rw [hline]
    exact List.length_pos_iff.mpr hne
  have hleft := hafter.column.1
  rw [editor_append, editorKey, if_neg (by decide), if_pos rfl, if_pos hpos] at hleft
  simp only [shellBackspace, Console.draw] at hleft
  omega

/-- A line shown after every key never goes back over a wrap. -/
theorem neverUnwraps_of_shown (hx : 0 ≤ x₀ ∧ x₀ ≤ 80) {keys : List UInt8} (hkeys : newline ∉ keys)
    (hall : ∀ earlier, earlier <+: keys →
      Shown stray g fb x₀ y₀ earlier (editor x₀ y₀ earlier)) : NeverUnwraps x₀ keys := by
  intro earlier hpre hne hrow
  have hbefore : earlier <+: keys := (List.prefix_append _ _).trans hpre
  exact not_shown_of_unwrap hx (fun hmem => hkeys (hbefore.subset hmem)) (hall _ hbefore) hne
    hrow (hall _ hpre)

end Lines

/-- **The screen shows the line being edited** at every point, on scan lines of at least
728 pixels exactly if no character is deleted while the cursor is at the left end of a
row, and on no screen otherwise. -/
theorem shown_iff (stray : UInt8 → Nat → UInt8) (g : Geometry) (fb : Picture)
    (hx : 0 ≤ x₀ ∧ x₀ ≤ 80) (y₀ : Int) {keys : List UInt8} (hkeys : newline ∉ keys) :
    (Roomy g y₀ → ((∀ earlier, earlier <+: keys →
        Shown stray g fb x₀ y₀ earlier (editor x₀ y₀ earlier)) ↔ NeverUnwraps x₀ keys)) ∧
      (¬ NeverUnwraps x₀ keys → ¬ ∀ earlier, earlier <+: keys →
        Shown stray g fb x₀ y₀ earlier (editor x₀ y₀ earlier)) := by
  refine ⟨fun hroomy => ⟨neverUnwraps_of_shown hx hkeys, fun h earlier hpre => ?_⟩,
    mt (neverUnwraps_of_shown hx hkeys)⟩
  exact shown_of_neverUnwraps hroomy hx (fun hmem => hkeys (hpre.subset hmem))
    fun first hfirst => h first (hfirst.trans hpre)

/-- A line that fits its row never wraps. -/
theorem neverUnwraps_of_short (hx : 0 ≤ x₀) {keys : List UInt8} (h : x₀ + keys.length ≤ 81) :
    NeverUnwraps x₀ keys := by
  intro earlier hpre hne
  have hlen := length_editLine_le earlier
  have hle := hpre.length_le
  rw [List.length_append, List.length_singleton] at hle
  have hpos := List.length_pos_iff.mpr hne
  omega

/-- Two characters and a backspace behind the prompt. -/
theorem shown_iff_short : Shown (fun _ _ => 0) ⟨768, 1024⟩ (fun _ => white) 10 40 [97, 98, 8]
    (editor 10 40 [97, 98, 8]) :=
  ((shown_iff (fun _ _ => 0) ⟨768, 1024⟩ (fun _ => white) ⟨by decide, by decide⟩ 40
    (by decide)).1 ⟨by decide, by decide, by decide⟩).mpr
      (neverUnwraps_of_short (by decide) (by decide)) [97, 98, 8] List.prefix_rfl

/-- Behind the prompt, 71 characters end their row; then a backspace. -/
theorem unwrap_not_shown : ¬ ∀ earlier, earlier <+: List.replicate 71 97 ++ [8] →
    Shown (fun _ _ => 0) ⟨768, 1024⟩ (fun _ => 0) 10 40 earlier (editor 10 40 earlier) := by
  intro hall
  have hleft := (hall _ List.prefix_rfl).column.1
  have hcursor : (editor 10 40 (List.replicate 71 97 ++ [8])).con.cursorX = -1 := by
    decide +kernel
  rw [hcursor] at hleft
  exact absurd hleft (by decide)

/-! ## The shell's screen -/

/-- The keys that `read_key` makes of a list of scancodes. -/
def readKeys : Bool → List UInt8 → List UInt8
  | _, [] => []
  | shiftPressed, scancode :: rest =>
      (readKey shiftPressed scancode).1 :: readKeys (readKey shiftPressed scancode).2 rest

/-- The shell edits the line as `e` does, after `acts`. -/
structure Editing (acts : List Act) (s : State) (e : Editor) : Prop where
  con : s.con = { e.con with acts := acts ++ e.con.acts }
  input : s.input = e.input

theorem pressKey_shift (K : Kernel) (fs : Fsso.FssoFilesystem) (s : State) (scancode : UInt8) :
    (pressKey K fs s scancode).shiftPressed = (readKey s.shiftPressed scancode).2 := by
  simp only [pressKey]
  repeat' split
  all_goals rfl

/-- **The shell follows the editor** through a key that does not end the line. -/
theorem Editing.key {acts : List Act} {s : State} {e : Editor} (h : Editing acts s e) (K : Kernel)
    (fs : Fsso.FssoFilesystem) (scancode : UInt8)
    (hline : (readKey s.shiftPressed scancode).1 ≠ newline) :
    Editing acts (pressKey K fs s scancode)
      (editorKey e (readKey s.shiftPressed scancode).1) := by
  refine ⟨?_, ?_⟩
  · have hcon := h.con
    simp only [pressKey, editorKey, if_neg hline, h.input]
    split
    · exact hcon
    · split
      · split
        · simp only [shellBackspace, Console.draw, hcon, List.append_assoc]
        · exact hcon
      · split
        · simp only [shellPutchar_eq _ hline, hcon, List.append_assoc]
          split <;> rfl
        · exact hcon
  · rw [pressKey_input K fs s scancode hline, editorKey_input, h.input]

/-- **Run lemma** of the shell inside a line. -/
theorem Editing.keys {acts : List Act} {s : State} {e : Editor} (h : Editing acts s e) (K : Kernel)
    (fs : Fsso.FssoFilesystem) {scancodes : List UInt8}
    (hline : newline ∉ readKeys s.shiftPressed scancodes) :
    Editing acts (scancodes.foldl (pressKey K fs) s)
      ((readKeys s.shiftPressed scancodes).foldl editorKey e) := by
  induction scancodes generalizing s e with
  | nil => exact h
  | cons scancode rest ih =>
      rw [readKeys, List.mem_cons, not_or] at hline
      rw [List.foldl_cons, readKeys, List.foldl_cons]
      have hshift := pressKey_shift K fs s scancode
      rw [← hshift] at hline ⊢
      exact ih (h.key K fs scancode (Ne.symm hline.1)) hline.2

end Shell
