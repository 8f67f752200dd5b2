import SimplrOS.CatFile
import SimplrOS.LineEditor
import SimplrOS.ShiftKeys

/-!
# Typing a line

The way from a text to the scancodes of a keyboard and back through `read_key` and
`shell_readline`.  `strokes` are the scancodes of the key that has a character,
pressed and released, inside a press and a release of the left Shift key where the
character needs it.

Every printable character comes back from its strokes, and the flag is off again
behind them (`strokes_read`).  So the shell runs exactly the lines that are typed.
-/

namespace Shell

open ByteStore Fsso

/-! ## Strokes -/

/-- The scancode at which a key table has a character. -/
def codeIn (table : List UInt8) (c : UInt8) : Option UInt8 :=
  (table.findIdx? fun d => d = c).map UInt8.ofNat

/-- Press and release of a key. -/
def tap (code : UInt8) : List UInt8 := [code, code ||| 0x80]

/-- The scancodes of typing one character. -/
def strokes (c : UInt8) : List UInt8 :=
  match codeIn scancodeMap c with
  | some code => tap code
  | none =>
      match codeIn scancodeMapShift c with
      | some code => 0x2A :: tap code ++ [0xAA]
      | none => []

/-- The scancodes of typing a text. -/
def typeText (text : List UInt8) : List UInt8 := text.flatMap strokes

/-- The scancodes of typing a text and Enter. -/
def typeLine (text : List UInt8) : List UInt8 := typeText text ++ tap 0x1C

/-- The characters of a line from space to tilde. -/
def Printable (text : List UInt8) : Prop := ∀ c ∈ text, 32 ≤ c ∧ c ≤ 126

/-- The shell with an empty line, after `line` has been typed and run. -/
def runTyped (K : Kernel) (fs : FssoFilesystem) (s : State) (line : List UInt8) : State :=
  let (con, clock) := runLine K fs s.clock (shellPutchar (shellPrint s.con line) newline) line
  ⟨prompt con, [], false, clock⟩

/-! ## Back to the character -/

theorem printable_strokes : ∀ n < 256, 32 ≤ n ∧ n ≤ 126 →
    (readKeys false (strokes (UInt8.ofNat n))).filter (· ≠ 0) = [UInt8.ofNat n] ∧
      flagAfter false (strokes (UInt8.ofNat n)) = false := by
  decide +kernel

theorem strokes_read {c : UInt8} (hlo : 32 ≤ c) (hhi : c ≤ 126) :
    (readKeys false (strokes c)).filter (· ≠ 0) = [c] ∧ flagAfter false (strokes c) = false := by
  have hlo' := UInt8.le_iff_toNat_le.mp hlo
  have hhi' := UInt8.le_iff_toNat_le.mp hhi
  have hread := printable_strokes c.toNat c.toNat_lt ⟨hlo', hhi'⟩
  rw [UInt8.ofNat_toNat] at hread
  exact hread

theorem readKeys_append (flag : Bool) (codes more : List UInt8) :
    readKeys flag (codes ++ more) =
      readKeys flag codes ++ readKeys (flagAfter flag codes) more := by
  induction codes generalizing flag with
  | nil => rfl
  | cons code rest ih => rw [List.cons_append, readKeys, ih, readKeys]; rfl

theorem flagAfter_append (flag : Bool) (codes more : List UInt8) :
    flagAfter flag (codes ++ more) = flagAfter (flagAfter flag codes) more :=
  List.foldl_append

theorem typeText_read {text : List UInt8} (h : Printable text) :
    (readKeys false (typeText text)).filter (· ≠ 0) = text ∧
      flagAfter false (typeText text) = false := by
  induction text with
  | nil => exact ⟨rfl, rfl⟩
  | cons c rest ih =>
      obtain ⟨hlo, hhi⟩ := h c List.mem_cons_self
      obtain ⟨hread, hflag⟩ := strokes_read hlo hhi
      obtain ⟨hrest, hrestFlag⟩ := ih fun d hd => h d (List.mem_cons_of_mem c hd)
      have hsplit : typeText (c :: rest) = strokes c ++ typeText rest := List.flatMap_cons
      constructor
      · rw [hsplit, readKeys_append, List.filter_append, hread, hflag, hrest, List.singleton_append]
      · rw [hsplit, flagAfter_append, hflag, hrestFlag]

/-! ## Into the line -/

/-- Scancodes without Enter and backspace print their characters and append them to
the line while it has room. -/
theorem pressKeys_append (K : Kernel) (fs : FssoFilesystem) (codes : List UInt8) {s : State}
    (hplain : ∀ c ∈ readKeys s.shiftPressed codes, c ≠ newline ∧ c ≠ backspace)
    (hroom : s.input.length + ((readKeys s.shiftPressed codes).filter (· ≠ 0)).length ≤ 255) :
    codes.foldl (pressKey K fs) s =
      { con := shellPrint s.con ((readKeys s.shiftPressed codes).filter (· ≠ 0))
        input := s.input ++ (readKeys s.shiftPressed codes).filter (· ≠ 0)
        shiftPressed := flagAfter s.shiftPressed codes
        clock := s.clock } := by
  induction codes generalizing s with
  | nil => simp [readKeys, shellPrint, flagAfter]
  | cons code rest ih =>
      rw [readKeys] at hplain hroom ⊢
      obtain ⟨hline, hback⟩ := hplain _ List.mem_cons_self
      have hrest : ∀ c ∈ readKeys (readKey s.shiftPressed code).2 rest,
          c ≠ newline ∧ c ≠ backspace := fun c hc => hplain c (List.mem_cons_of_mem _ hc)
      by_cases hzero : (readKey s.shiftPressed code).1 = 0
      · have hkey : pressKey K fs s code =
            { s with shiftPressed := (readKey s.shiftPressed code).2 } := by
          simp only [pressKey, if_pos hzero]
        rw [List.filter_cons_of_neg (by simpa using hzero)] at hroom ⊢
        rw [List.foldl_cons, hkey, ih hrest hroom]
        rfl
      · rw [List.filter_cons_of_pos (by simpa using hzero)] at hroom ⊢
        rw [List.length_cons] at hroom
        have hmax : shellMaxInput = 256 := rfl
        have hkey : pressKey K fs s code =
            { con := shellPutchar s.con (readKey s.shiftPressed code).1
              input := s.input ++ [(readKey s.shiftPressed code).1]
              shiftPressed := (readKey s.shiftPressed code).2
              clock := s.clock } := by
          simp only [pressKey, if_neg hzero, if_neg hline, if_neg hback]
          rw [if_pos (by omega)]
        have hroom' : (s.input ++ [(readKey s.shiftPressed code).1]).length +
            ((readKeys (readKey s.shiftPressed code).2 rest).filter (· ≠ 0)).length ≤ 255 := by
          rw [List.length_append, List.length_singleton]
          omega
        rw [List.foldl_cons, hkey, ih hrest hroom']
        simp only [List.append_assoc, List.singleton_append]
        rfl

theorem printable_plain {text : List UInt8} (h : Printable text) :
    ∀ c ∈ readKeys false (typeText text), c ≠ newline ∧ c ≠ backspace := by
  intro c hc
  by_cases hzero : c = 0
  · subst hzero
    decide
  · have hmem : c ∈ (readKeys false (typeText text)).filter (· ≠ 0) :=
      List.mem_filter.mpr ⟨hc, by simpa using hzero⟩
    rw [(typeText_read h).1] at hmem
    have hlo := (h c hmem).1
    constructor
    · intro heq
      subst heq
      exact absurd hlo (by decide)
    · intro heq
      subst heq
      exact absurd hlo (by decide)

/-- **One line.**  Typing a line and Enter runs it. -/
theorem typeLine_run (K : Kernel) (fs : FssoFilesystem) {line : List UInt8} (h : Printable line)
    (hlen : line.length ≤ 255) {s : State} (hinput : s.input = [])
    (hshift : s.shiftPressed = false) :
    (typeLine line).foldl (pressKey K fs) s = runTyped K fs s line := by
  obtain ⟨hread, hflag⟩ := typeText_read h
  have htext := pressKeys_append K fs (typeText line) (s := s)
    (by rw [hshift]; exact printable_plain h)
    (by rw [hshift, hread, hinput, List.length_nil]; omega)
  rw [hshift, hread, hflag, hinput, List.nil_append] at htext
  rw [typeLine, List.foldl_append, htext]
  rfl

/-- **Typed lines.**  Whatever the kernel and the disk, typing lines runs exactly these
lines, one after the other. -/
theorem shellRun_typed (K : Kernel) (fs : FssoFilesystem) (t : Nat) (con : Console)
    {lines : List (List UInt8)} (h : ∀ line ∈ lines, Printable line ∧ line.length ≤ 255) :
    shellRun K fs t con (lines.flatMap typeLine) =
      lines.foldl (runTyped K fs) ⟨prompt con, [], false, t⟩ := by
  have hfrom : ∀ s : State, s.input = [] → s.shiftPressed = false →
      (lines.flatMap typeLine).foldl (pressKey K fs) s = lines.foldl (runTyped K fs) s := by
    induction lines with
    | nil => exact fun s _ _ => rfl
    | cons line rest ih =>
        intro s hinput hshift
        obtain ⟨hprint, hlen⟩ := h line List.mem_cons_self
        have hrest := ih fun l hl => h l (List.mem_cons_of_mem line hl)
        rw [List.flatMap_cons, List.foldl_append, typeLine_run K fs hprint hlen hinput hshift,
          List.foldl_cons]
        exact hrest (runTyped K fs s line) rfl rfl
  exact hfrom _ rfl rfl

/-- Typing `echo Hi!`. -/
theorem shellRun_typed_echo :
    shellRun (plainKernel fun _ => 0) formattedFs 0 ⟨0, 40, []⟩
        ([ascii "echo Hi!"].flatMap typeLine) =
      [ascii "echo Hi!"].foldl (runTyped (plainKernel fun _ => 0) formattedFs)
        ⟨prompt ⟨0, 40, []⟩, [], false, 0⟩ := by
  refine shellRun_typed _ _ _ _ fun line hline => ?_
  rw [List.mem_singleton.mp hline]
  refine ⟨fun c hc => ?_, by decide⟩
  have hall : ∀ c ∈ ascii "echo Hi!", 32 ≤ c ∧ c ≤ 126 := by decide +kernel
  exact hall c hc

end Shell
