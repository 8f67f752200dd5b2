import SimplrOS.FileShell
import SimplrOS.TextGrid

/-!
# The conversation on the screen

From the disk to the pixels: what the user sees is the conversation itself.  `tidy` is
the session as it would be without typing errors, with every line printed once in its
final form.  Taking a character back leaves the grid as if the character had never been
typed, so the screen after the session with all its corrections is the screen after the
tidy one.

Three conditions are the code's own.  A character that was the last of its row must not
be taken back, since the cursor does not return to the row; the drawing must stay
on the screen; and `clear` blackens 768 rows and no more.
-/

namespace Shell

open Ahci ByteStore Fsso

/-- The session without corrections, from the point where `line` has been typed. -/
def tidy (files : List StoredFile) : List UInt8 → List UInt8 → List Event
  | line, [] => putAll line
  | line, c :: keys =>
      if c = newline then putAll line ++ (answer files line ++ tidy files [] keys)
      else tidy files (editKey line c) keys

/-- No character is taken back while the cursor is at the left end of a row; the line
begins behind the ten characters of the prompt. -/
def NeverUnwrapsAll : List UInt8 → List UInt8 → Prop
  | _, [] => True
  | line, c :: keys =>
      (c = backspace → line ≠ [] → (10 + line.length) % 81 ≠ 0) ∧
        NeverUnwrapsAll (if c = newline then [] else editKey line c) keys

instance decidableNeverUnwrapsAll :
    ∀ line keys, Decidable (NeverUnwrapsAll line keys)
  | _, [] => inferInstanceAs (Decidable True)
  | line, c :: keys =>
      have := decidableNeverUnwrapsAll (if c = newline then [] else editKey line c) keys
      inferInstanceAs (Decidable ((c = backspace → line ≠ [] → (10 + line.length) % 81 ≠ 0) ∧
        NeverUnwrapsAll (if c = newline then [] else editKey line c) keys))

section Look

variable {pps : UInt32} {base : Grid}

/-- The grid that a console has drawn over `base`. -/
def Console.grid (pps : UInt32) (base : Grid) (con : Console) : Grid := base.drawAll pps con.acts

/-- Two consoles with the same cursor and the same grid. -/
structure SameLook (pps : UInt32) (base : Grid) (con con' : Console) : Prop where
  cursorX : con.cursorX = con'.cursorX
  cursorY : con.cursorY = con'.cursorY
  grid : con.grid pps base = con'.grid pps base

/-- The cells from the cursor on are blank. -/
def BlankAhead (pps : UInt32) (base : Grid) (con : Console) : Prop :=
  ∀ x y, con.cursorY < y ∨ (y = con.cursorY ∧ con.cursorX * 9 ≤ x) → con.grid pps base x y = []

/-- Nothing is drawn below the rows that `clear` blackens. -/
def Shallow (pps : UInt32) (base : Grid) (con : Console) : Prop :=
  ∀ x y, 768 ≤ y → con.grid pps base x y = []

/-- One more drawing step. -/
theorem grid_append (pps : UInt32) (base : Grid) (con : Console) (act : Act) (x y : Int) :
    Console.grid pps base { con with cursorX := x, cursorY := y, acts := con.acts ++ [act] } =
      (con.grid pps base).draw pps act := List.foldl_concat ..

/-- A console looks like itself. -/
theorem SameLook.refl (con : Console) : SameLook pps base con con := ⟨rfl, rfl, rfl⟩

theorem SameLook.trans {con con' con'' : Console} (h : SameLook pps base con con')
    (h' : SameLook pps base con' con'') : SameLook pps base con con'' :=
  ⟨h.cursorX.trans h'.cursorX, h.cursorY.trans h'.cursorY, h.grid.trans h'.grid⟩

theorem SameLook.symm {con con' : Console} (h : SameLook pps base con con') :
    SameLook pps base con' con := ⟨h.cursorX.symm, h.cursorY.symm, h.grid.symm⟩

/-! ## Events -/

/-- What a character other than the newline does. -/
theorem put_eq (con : Console) {c : UInt8} (hc : c ≠ newline) :
    shellPutchar con c =
      { cursorX := if 80 < con.cursorX + 1 then 0 else con.cursorX + 1
        cursorY := if 80 < con.cursorX + 1 then con.cursorY + 10 else con.cursorY
        acts := con.acts ++ [.char (con.cursorX * 9) con.cursorY c white] } := by
  rw [shellPutchar_eq con hc]
  split <;> rfl

/-- What a newline does. -/
theorem put_newline (con : Console) :
    shellPutchar con newline = { con with cursorX := 0, cursorY := con.cursorY + 10 } := rfl

theorem put_newline_column (con : Console) : (shellPutchar con newline).cursorX = 0 := rfl

/-- Consoles that look alike do so after the same event. -/
theorem SameLook.event {con con' : Console} (h : SameLook pps base con con') (e : Event) :
    SameLook pps base (e.apply pps con) (e.apply pps con') := by
  obtain ⟨hx, hy, hgrid⟩ := h
  cases e with
  | put c =>
      by_cases hline : c = newline
      · subst hline
        exact ⟨rfl, congrArg (· + 10) hy, hgrid⟩
      · simp only [Event.apply, put_eq _ hline, hx, hy]
        refine ⟨rfl, rfl, ?_⟩
        rw [grid_append, grid_append, hgrid]
  | back =>
      refine ⟨congrArg (· - 1) hx, hy, ?_⟩
      simp only [Event.apply, shellBackspace, Console.draw]
      rw [grid_append, grid_append, hx, hy, hgrid]
  | clear =>
      refine ⟨rfl, rfl, ?_⟩
      simp only [Event.apply, cmdClear, Console.draw]
      rw [grid_append, grid_append, hgrid]

/-- Consoles that look alike do so after the same events. -/
theorem SameLook.events {con con' : Console} (h : SameLook pps base con con')
    (events : List Event) :
    SameLook pps base (events.foldl (Event.apply pps) con)
      (events.foldl (Event.apply pps) con') := by
  induction events generalizing con con' with
  | nil => exact h
  | cons e rest ih => exact ih (h.event e)

/-- Only the look counts. -/
theorem BlankAhead.of_same {con con' : Console} (h : BlankAhead pps base con)
    (hsame : SameLook pps base con con') : BlankAhead pps base con' := by
  intro x y hahead
  rw [← hsame.grid]
  exact h x y (by rw [hsame.cursorX, hsame.cursorY]; exact hahead)

/-- A character leaves the cells ahead blank. -/
theorem BlankAhead.put {con : Console} (h : BlankAhead pps base con) (c : UInt8) :
    BlankAhead pps base (shellPutchar con c) := by
  by_cases hline : c = newline
  · subst hline
    intro x y hahead
    rw [put_newline] at hahead
    exact h x y (Or.inl (by dsimp only at hahead; omega))
  · rw [put_eq con hline]
    intro x y hahead
    dsimp only at hahead
    have hbehind : ¬ (x = con.cursorX * 9 ∧ y = con.cursorY) := by
      split at hahead <;> omega
    have hold : con.cursorY < y ∨ (y = con.cursorY ∧ con.cursorX * 9 ≤ x) := by
      split at hahead <;> omega
    rw [grid_append, Grid.draw_char, if_neg hbehind]
    exact h x y hold

/-- A text leaves the cells ahead blank. -/
theorem BlankAhead.print {con : Console} (h : BlankAhead pps base con) (text : List UInt8) :
    BlankAhead pps base (shellPrint con text) := by
  induction text generalizing con with
  | nil => exact h
  | cons c rest ih => exact ih (h.put c)

/-- **Taking back.**  A character that did not end its row is taken back without a
trace. -/
theorem BlankAhead.takeBack {con : Console} (h : BlankAhead pps base con) {c : UInt8}
    (hc : c ≠ newline) (hrow : con.cursorX + 1 ≤ 80) :
    SameLook pps base (shellBackspace (shellPutchar con c)) con := by
  rw [put_eq con hc, if_neg (by omega), if_neg (by omega)]
  have hx : con.cursorX + 1 - 1 = con.cursorX := by omega
  refine ⟨hx, rfl, ?_⟩
  have hback := grid_append pps base
    { con with
      cursorX := con.cursorX + 1
      acts := con.acts ++ [.char (con.cursorX * 9) con.cursorY c white] }
    (.erase (con.cursorX * 9) con.cursorY) con.cursorX con.cursorY
  have hput := grid_append pps base con
    (.char (con.cursorX * 9) con.cursorY c white) (con.cursorX + 1) con.cursorY
  simp only [shellBackspace, Console.draw, hx]
  rw [hback, hput]
  funext x y
  rw [Grid.draw_erase, Grid.draw_char]
  by_cases hhere : x = con.cursorX * 9 ∧ y = con.cursorY
  · rw [if_pos hhere]
    exact (h x y (Or.inr ⟨hhere.2, by omega⟩)).symm
  · rw [if_neg hhere, if_neg hhere]

/-- `clear` leaves the cells ahead blank if nothing has been drawn further down. -/
theorem BlankAhead.clear {con : Console} (hclear : 768 * pps.toNat < 4294967296)
    (hpps : 0 < pps.toNat) (h : Shallow pps base con) : BlankAhead pps base (cmdClear pps con) := by
  intro x y _
  have hcount : (768 * pps).toNat = 768 * pps.toNat := by
    rw [UInt32.toNat_mul]
    exact Nat.mod_eq_of_lt hclear
  simp only [cmdClear, Console.draw]
  rw [grid_append, Grid.draw_blacken, hcount]
  by_cases hy : 768 ≤ y
  · rw [h x y hy]
    exact ite_self []
  · have hlt : y * (pps.toNat : Int) < (768 * pps.toNat : Nat) := by
      rw [Int.natCast_mul]
      exact Int.mul_lt_mul_of_pos_right (by omega) (by omega)
    rw [if_pos hlt]

/-! ## The column -/

/-- A text within a line moves the cursor along its rows. -/
theorem shellPrint_column {con : Console} (hx : 0 ≤ con.cursorX ∧ con.cursorX ≤ 80)
    {text : List UInt8} (htext : newline ∉ text) :
    (shellPrint con text).cursorX = (con.cursorX + text.length) % 81 := by
  induction text generalizing con with
  | nil =>
      change con.cursorX = _
      simp only [List.length_nil]
      omega
  | cons c rest ih =>
      have hc : c ≠ newline := fun heq => htext (heq ▸ List.mem_cons_self)
      have hrest : newline ∉ rest := fun hmem => htext (List.mem_cons_of_mem c hmem)
      have hput := put_eq con hc
      have hcolumn : (shellPutchar con c).cursorX = (con.cursorX + 1) % 81 := by
        rw [hput]
        dsimp only
        split <;> omega
      have hprint : shellPrint con (c :: rest) = shellPrint (shellPutchar con c) rest := rfl
      rw [hprint, ih (by rw [hcolumn]; omega) hrest, hcolumn, List.length_cons]
      omega

/-- A text with a newline at its end leaves the cursor at the left margin. -/
theorem shellPrint_ends (con : Console) (text : List UInt8) :
    (shellPrint con (text ++ [newline])).cursorX = 0 := by
  rw [shellPrint_append]
  rfl

/-- The answer of `cat` ends with a newline. -/
theorem catReply_ends (files : List StoredFile) (args : List (List UInt8)) :
    ∃ text, catReply files args = text ++ [newline] := by
  cases args with
  | nil =>
      have husage : ascii "Usage: cat <filename>\n" =
          ascii "Usage: cat <filename>" ++ [newline] := by decide +kernel
      exact ⟨_, husage⟩
  | cons name rest =>
      rw [catReply]
      split
      · exact ⟨_, rfl⟩
      · exact ⟨_, rfl⟩

/-- The help text ends with a newline. -/
theorem helpText_ends : ∃ text, helpText.flatMap ascii = text ++ [newline] :=
  ⟨(helpText.flatMap ascii).dropLast, by decide +kernel⟩

/-- An answer ends at the left end of a row. -/
theorem respond_column (pps : UInt32) (files : List StoredFile) (line : List UInt8) {con : Console}
    (hcon : con.cursorX = 0) :
    ((respond files line).foldl (Event.apply pps) con).cursorX = 0 := by
  rw [respond]
  split
  · exact hcon
  · split
    · rw [putAll_apply]
      exact shellPrint_ends con _
    · split
      · rfl
      · split
        · rw [putAll_apply]
          rcases List.eq_nil_or_concat' files with rfl | ⟨front, f, rfl⟩
          · exact hcon
          · rw [List.flatMap_append, List.flatMap_singleton, ← List.append_assoc]
            exact shellPrint_ends con _
        · split
          · obtain ⟨text, htext⟩ := catReply_ends files _
            rw [putAll_apply, htext]
            exact shellPrint_ends con text
          · split
            · obtain ⟨text, htext⟩ := helpText_ends
              rw [putAll_apply, htext]
              exact shellPrint_ends con text
            · rw [putAll_apply]
              exact shellPrint_ends con _

/-! ## Staying above the blackened rows -/

/-- The step draws no character from `row` on. -/
def Act.Above (row : Int) : Act → Prop
  | .blacken _ => True
  | .char _ y _ _ => y < row
  | .erase _ _ => True

/-- Drawing above a row leaves the cells from the row on blank. -/
theorem drawAll_above {row : Int} {acts : List Act} (hbase : ∀ x y, row ≤ y → base x y = [])
    (habove : ∀ act ∈ acts, act.Above row) : ∀ x y, row ≤ y → base.drawAll pps acts x y = [] := by
  induction acts generalizing base with
  | nil => exact hbase
  | cons act rest ih =>
      refine ih ?_ fun a ha => habove a (List.mem_cons_of_mem act ha)
      intro x y hy
      have hact := habove act List.mem_cons_self
      cases act with
      | blacken count =>
          rw [Grid.draw_blacken, hbase x y hy]
          exact ite_self []
      | char x' y' c color =>
          have hrow : y' < row := hact
          rw [Grid.draw_char, if_neg (by omega)]
          exact hbase x y hy
      | erase x' y' =>
          rw [Grid.draw_erase, hbase x y hy]
          exact ite_self []

/-- On a screen of at most 775 lines nothing is drawn below what `clear` blackens. -/
theorem shallow_of_onScreen {g : Geometry} (hheight : g.height.toNat ≤ 775) {con : Console}
    (hbase : ∀ x y, 768 ≤ y → base x y = []) (hscreen : ∀ act ∈ con.acts, act.OnScreen g) :
    Shallow pps base con := by
  refine drawAll_above hbase ?_
  intro act hact
  have hon := hscreen act hact
  cases act with
  | blacken count => trivial
  | char x y c color =>
      have hbottom := hon.2
      change y < 768
      omega
  | erase x y => trivial

/-! ## A session and its tidy form -/

/-- An answer is a text, or clears the screen. -/
theorem respond_cases (files : List StoredFile) (line : List UInt8) :
    (∃ text, respond files line = putAll text) ∨ respond files line = [.clear] := by
  rw [respond]
  split
  · exact Or.inl ⟨[], rfl⟩
  · split
    · exact Or.inl ⟨_, rfl⟩
    · split
      · exact Or.inr rfl
      · split
        · exact Or.inl ⟨_, rfl⟩
        · split
          · exact Or.inl ⟨_, rfl⟩
          · split
            · exact Or.inl ⟨_, rfl⟩
            · exact Or.inl ⟨_, rfl⟩

/-- An answer leaves the cells from the cursor on blank. -/
theorem BlankAhead.respond {g : Geometry} (hg : g.Regular) (hheight : g.height.toNat ≤ 775)
    (hbase : ∀ x y, 768 ≤ y → base x y = []) {con : Console} (h : BlankAhead g.pps base con)
    (hscreen : ∀ act ∈ con.acts, act.OnScreen g) (files : List StoredFile) (line : List UInt8) :
    BlankAhead g.pps base ((respond files line).foldl (Event.apply g.pps) con) := by
  have hwide := hg.wide
  obtain ⟨text, htext⟩ | hclear := respond_cases files line
  · rw [htext, putAll_apply]
    exact h.print text
  · rw [hclear]
    exact BlankAhead.clear hg.clear (by omega) (shallow_of_onScreen hheight hbase hscreen)

/-- The console at a prompt. -/
structure Prompted (pps : UInt32) (base : Grid) (con : Console) : Prop where
  column : con.cursorX = 10
  blank : BlankAhead pps base con

/-- The prompt is printed with blank cells ahead. -/
theorem BlankAhead.prompted {con : Console} (h : BlankAhead pps base con)
    (hcon : con.cursorX = 0) : Prompted pps base (shellPrint con (ascii "SimplrOS> ")) := by
  have hprompt : newline ∉ ascii "SimplrOS> " := by decide +kernel
  refine ⟨?_, h.print _⟩
  rw [shellPrint_column (by omega) hprompt, hcon]
  decide +kernel

/-- A finished line leads to the next prompt. -/
theorem BlankAhead.answered {g : Geometry} (hg : g.Regular) (hheight : g.height.toNat ≤ 775)
    (hbase : ∀ x y, 768 ≤ y → base x y = []) {con : Console} (h : BlankAhead g.pps base con)
    (hscreen : ∀ act ∈ con.acts, act.OnScreen g) (files : List StoredFile) (line : List UInt8) :
    Prompted g.pps base ((answer files line).foldl (Event.apply g.pps) con) := by
  have hanswer := (h.put newline).respond hg hheight hbase hscreen files line
  have hleft := respond_column g.pps files line (put_newline_column con)
  rw [answer, List.cons_append, List.foldl_cons, List.foldl_append, putAll_apply]
  exact hanswer.prompted hleft

/-- Taking back the last character of the line. -/
theorem Prompted.erased {con₀ con : Console} (h : Prompted pps base con₀) {front : List UInt8}
    {last : UInt8} (hline : newline ∉ front ++ [last])
    (hwrap : (10 + (front ++ [last]).length) % 81 ≠ 0)
    (hlook : SameLook pps base con (shellPrint con₀ (front ++ [last]))) :
    SameLook pps base (shellBackspace con) (shellPrint con₀ front) := by
  have hfront : newline ∉ front := fun hmem => hline (List.mem_append_left _ hmem)
  have hlast : last ≠ newline := by
    intro heq
    exact hline (List.mem_append_right _ (List.mem_singleton.mpr heq.symm))
  have hstart := h.column
  have hleft : 0 ≤ con₀.cursorX ∧ con₀.cursorX ≤ 80 := by omega
  have hplace := shellPrint_column hleft hfront
  rw [List.length_append, List.length_singleton] at hwrap
  have hundone := (h.blank.print front).takeBack hlast (by omega)
  rw [shellPrint_append, shellPrint_singleton] at hlook
  exact (hlook.event .back).trans hundone

section Session

variable {g : Geometry}

/-- **Run lemma.**  After any keys the screen is as after the tidy session. -/
theorem session_looks (hg : g.Regular) (hheight : g.height.toNat ≤ 775)
    (hbase : ∀ x y, 768 ≤ y → base x y = []) (files : List StoredFile) (keys : List UInt8)
    {line : List UInt8} {con₀ con : Console} (hprompt : Prompted g.pps base con₀)
    (hline : newline ∉ line) (hlook : SameLook g.pps base con (shellPrint con₀ line))
    (hunwrap : NeverUnwrapsAll line keys)
    (hscreen : ∀ act ∈ ((session files line keys).foldl (Event.apply g.pps) con).acts,
      act.OnScreen g) :
    SameLook g.pps base ((session files line keys).foldl (Event.apply g.pps) con)
      ((tidy files line keys).foldl (Event.apply g.pps) con₀) := by
  induction keys generalizing line con₀ con with
  | nil =>
      rw [session, tidy, putAll_apply]
      exact hlook
  | cons c rest ih =>
      obtain ⟨hback, hunwrap⟩ := hunwrap
      rw [session] at hscreen ⊢
      rw [tidy]
      by_cases hzero : c = 0
      · subst hzero
        exact ih hprompt hline hlook hunwrap hscreen
      · rw [if_neg hzero] at hscreen ⊢
        by_cases hnew : c = newline
        · rw [if_pos hnew, List.foldl_append] at hscreen ⊢
          rw [if_pos hnew] at hunwrap ⊢
          rw [List.foldl_append, List.foldl_append, putAll_apply]
          have hblank : BlankAhead g.pps base con := (hprompt.blank.print line).of_same hlook.symm
          have hsofar : ∀ act ∈ con.acts, act.OnScreen g := fun act hact =>
            hscreen act ((Console.After.acts ⟨_, rfl⟩).subset
              ((Console.After.acts ⟨_, rfl⟩).subset hact))
          have hnext := hblank.answered hg hheight hbase hsofar files line
          have hsame := hlook.events (answer files line)
          have hrest := ih hnext List.not_mem_nil (SameLook.refl _) hunwrap hscreen
          -- from the prompt on both consoles go through the same tidy session
          exact hrest.trans (hsame.events (tidy files [] rest))
        · rw [if_neg hnew] at hunwrap hscreen ⊢
          rw [if_neg hnew]
          by_cases herase : c = backspace
          · rw [if_pos herase] at hscreen ⊢
            have hedit : editKey line c = line.dropLast := by
              rw [editKey, if_neg hzero, if_pos herase]
            rw [hedit] at hunwrap ⊢
            rcases List.eq_nil_or_concat' line with rfl | ⟨front, last, rfl⟩
            · exact ih hprompt hline hlook hunwrap hscreen
            · have hne : front ++ [last] ≠ [] := by simp
              rw [if_neg hne, List.foldl_cons] at hscreen ⊢
              rw [List.dropLast_concat] at hunwrap hscreen ⊢
              exact ih hprompt (fun hmem => hline (List.mem_append_left _ hmem))
                (hprompt.erased hline (hback herase hne) hlook) hunwrap hscreen
          · rw [if_neg herase] at hscreen ⊢
            by_cases hroom : line.length < shellMaxInput - 1
            · have hedit : editKey line c = line ++ [c] := by
                rw [editKey, if_neg hzero, if_neg herase, if_pos hroom]
              rw [hedit] at hunwrap ⊢
              rw [if_pos hroom, List.foldl_cons] at hscreen ⊢
              have hline' : newline ∉ line ++ [c] := by
                simp only [List.mem_append, List.mem_singleton, not_or]
                exact ⟨hline, Ne.symm hnew⟩
              have hlook' : SameLook g.pps base (Event.apply g.pps con (.put c))
                  (shellPrint con₀ (line ++ [c])) := by
                rw [shellPrint_append, shellPrint_singleton]
                exact hlook.event (.put c)
              exact ih hprompt hline' hlook' hunwrap hscreen
            · have hedit : editKey line c = line := by
                rw [editKey, if_neg hzero, if_neg herase, if_neg hroom]
              rw [hedit] at hunwrap ⊢
              rw [if_neg hroom] at hscreen ⊢
              exact ih hprompt hline hlook hunwrap hscreen

end Session

end Look

/-! ## From the disk to the pixels -/

/-- What is on the screen after a session: the banner, and under it the tidy session. -/
def conversation (K : Kernel) (files : List StoredFile) (keys : List UInt8) : Grid :=
  let banner := blankGrid.drawAll K.screen.pps (initialDrawing K).1
  let events := putAll (ascii "SimplrOS> ") ++ tidy files [] (readKeys false keys)
  (events.foldl (Event.apply K.screen.pps) ⟨0, 40, []⟩).grid K.screen.pps banner

/-- The lines of the banner lie above the shell's first row. -/
theorem drawString_above (y : Int) (str : List UInt8) (color : UInt32) (hy : y < 40) :
    ∀ act ∈ drawString 0 y str color, act.Above 40 := by
  intro act hact
  obtain ⟨i, hi, rfl⟩ := List.mem_mapIdx.mp hact
  exact hy

/-- The banner ends above the first prompt. -/
theorem initialDrawing_above (K : Kernel) : ∀ act ∈ (initialDrawing K).1, act.Above 40 := by
  have hmore : ∀ {acts more : List Act}, (∀ act ∈ acts, act.Above 40) →
      (∀ act ∈ more, act.Above 40) → ∀ act ∈ acts ++ more, act.Above 40 := by
    intro acts more hacts hmore act hact
    exact (List.mem_append.mp hact).elim (hacts act) (hmore act)
  have hfirst : ∀ act ∈ Act.blacken (K.screen.height * K.screen.pps) ::
      drawString 0 0 (ascii "SimplrOS") white, act.Above 40 := by
    intro act hact
    rcases List.mem_cons.mp hact with rfl | hbanner
    · trivial
    · exact drawString_above 0 _ white (by decide) act hbanner
  rw [initialDrawing]
  dsimp only
  split
  · have hahci := hmore hfirst (drawString_above 10 (ascii "AHCI: OK") green (by decide))
    split
    · exact hmore hahci (drawString_above 20 _ green (by decide))
    · exact hmore hahci (drawString_above 20 _ red (by decide))
  · exact hmore hfirst (drawString_above 10 _ red (by decide))

/-- The banner leaves the cells from the shell's first row on blank. -/
theorem banner_low (K : Kernel) :
    ∀ x y, 40 ≤ y → blankGrid.drawAll K.screen.pps (initialDrawing K).1 x y = [] :=
  drawAll_above (fun _ _ _ => rfl) (initialDrawing_above K)

/-- **The conversation.**  On every image that `mkfsso` can have built, the screen shows
the lines typed, as corrected, and under each what the files answer, pixel by
pixel and whatever was on the screen before. -/
theorem kernelMain_conversation {K : Kernel} {calls : List AddCall}
    (hahci : (ahciInit K.hba).1 = 0) (hsound : K.drive.Sound) (hreach : Reaches calls K.drive.disk)
    (hlen : calls.length ≤ 106) (hg : K.screen.Regular) (hheight : K.screen.height.toNat ≤ 775)
    (keys : List UInt8) (hunwrap : NeverUnwrapsAll [] (readKeys false keys))
    (hscreen : ∀ act ∈ kernelMain K keys, act.OnScreen K.screen) (fb : Picture) :
    Renders K.stray K.screen (paintAll K.stray K.screen fb (kernelMain K keys))
      (conversation K (filesOf calls) keys) := by
  have haligned := kernelMain_aligned K keys
  have hserved := shellActs_served hahci hsound hreach hlen keys
  have hlow := banner_low K
  have hsession : ∀ act ∈ shellActs K keys, act.OnScreen K.screen :=
    fun act hact => hscreen act (List.mem_append_right _ hact)
  obtain ⟨acts, hacts⟩ := kernelMain_blackens K keys
  -- the grid of all drawing steps is that of the tidy session
  have hgrid : blankGrid.drawAll K.screen.pps (kernelMain K keys) =
      conversation K (filesOf calls) keys := by
    have hblank : BlankAhead K.screen.pps
        (blankGrid.drawAll K.screen.pps (initialDrawing K).1) ⟨0, 40, []⟩ := by
      intro x y hahead
      dsimp only at hahead
      exact hlow x y (by omega)
    have hprompt := hblank.prompted rfl
    rw [hserved, transcript, List.foldl_append, putAll_apply] at hsession
    rw [kernelMain, Grid.drawAll, List.foldl_append, hserved, transcript, conversation]
    rw [List.foldl_append, List.foldl_append, putAll_apply]
    generalize shellPrint ⟨0, 40, []⟩ (ascii "SimplrOS> ") = first at hprompt hsession ⊢
    have hlook := session_looks hg hheight (fun x y hy => hlow x y (by omega)) (filesOf calls)
      (readKeys false keys) hprompt List.not_mem_nil (SameLook.refl first) hunwrap hsession
    exact hlook.grid
  rw [← hgrid]
  rw [hacts] at haligned hscreen ⊢
  exact renders_from_blank hg acts haligned hscreen fb

/-- A kernel on a disk with a file, and 100 lines of screen. -/
def smallKernel : Kernel := { diskKernel helloDisk with screen := ⟨100, 736⟩ }

/-- `x` typed and taken back, then `ls`. -/
def correctedKeys : List UInt8 := [0x2D, 0x0E, 0x26, 0x1F, 0x1C]

/-- The session stays on the small screen. -/
theorem smallKernel_onScreen :
    ∀ act ∈ kernelMain smallKernel correctedKeys, act.OnScreen smallKernel.screen := by
  have hreach : Reaches ([] ++ [helloCall]) helloDisk := Reaches.call Reaches.format helloCall_run
  have hserved := shellActs_served (K := smallKernel) (by decide) (fun _ => rfl) hreach (by decide)
    correctedKeys
  rw [kernelMain, hserved]
  intro act hact
  rcases List.mem_append.mp hact with hbanner | hsession
  · rw [initialDrawing] at hbanner
    dsimp only at hbanner
    revert act
    split
    · split <;> decide +kernel
    · decide +kernel
  · revert act
    decide +kernel

/-- A typing error and `ls`. -/
theorem kernelMain_conversation_ls :
    Renders smallKernel.stray smallKernel.screen
      (paintAll smallKernel.stray smallKernel.screen (fun _ => white)
        (kernelMain smallKernel correctedKeys))
      (conversation smallKernel (filesOf [helloCall]) correctedKeys) :=
  kernelMain_conversation (K := smallKernel) (by decide) (fun _ => rfl)
    (Reaches.call Reaches.format helloCall_run) (by decide) ⟨by decide, by decide, by decide⟩
    (by decide) correctedKeys (by decide +kernel) smallKernel_onScreen fun _ => white

end Shell
