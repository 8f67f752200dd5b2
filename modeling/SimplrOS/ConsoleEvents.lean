import SimplrOS.DirListing
import SimplrOS.Echo
import SimplrOS.LineEditor

/-!
# Console events

Whatever the shell does to the console is a sequence of three events: a character is
put, one is taken back, or the screen is cleared.  A command only puts characters or
clears; only the line editor takes back.

An invariant of the console therefore needs one lemma for each event, and not one for
each command (`Console.After.keeps`).
-/

namespace Shell

open ByteStore Fsso Words

/-- What can happen to the console. -/
inductive Event
  | put (c : UInt8)
  | back
  | clear
deriving DecidableEq

/-- What the event does to the console. -/
def Event.apply (pps : UInt32) (con : Console) : Event → Console
  | .put c => shellPutchar con c
  | .back => shellBackspace con
  | .clear => cmdClear pps con

/-- A text, character by character. -/
def putAll (text : List UInt8) : List Event := text.map Event.put

/-- The console after some events. -/
def Console.After (pps : UInt32) (con con' : Console) : Prop :=
  ∃ events : List Event, con' = events.foldl (Event.apply pps) con

/-! ## Printing -/

/-- `str_eq` compares strings. -/
theorem strEq_iff {as bs : List UInt8} : strEq as bs = true ↔ as = bs := by
  induction as generalizing bs with
  | nil => cases bs <;> simp [strEq]
  | cons a as ih => cases bs <;> simp [strEq, ih]

/-- Putting a text prints it. -/
theorem putAll_apply (pps : UInt32) (con : Console) (text : List UInt8) :
    (putAll text).foldl (Event.apply pps) con = shellPrint con text := by
  rw [putAll, List.foldl_map]
  rfl

/-- Printing piece by piece. -/
theorem foldl_shellPrint {α : Type} (f : α → List UInt8) (pieces : List α) (con : Console) :
    pieces.foldl (fun con x => shellPrint con (f x)) con = shellPrint con (pieces.flatMap f) := by
  induction pieces generalizing con with
  | nil => rfl
  | cons x rest ih => rw [List.foldl_cons, ih, List.flatMap_cons, shellPrint_append]

/-- Names are printed one under the other. -/
theorem foldl_printLine (names : List (List UInt8)) (con : Console) :
    names.foldl printLine con = shellPrint con (names.flatMap fun name => name ++ [newline]) := by
  rw [← foldl_shellPrint]
  congr 1
  funext con name
  rw [shellPrint_append, shellPrint_singleton]
  rfl

/-! ## What the commands and keys do -/

section After

variable {pps : UInt32} {con con' con'' : Console}

/-- No event. -/
theorem Console.After.refl (pps : UInt32) (con : Console) : con.After pps con := ⟨[], rfl⟩

/-- Some events and then others. -/
theorem Console.After.trans (h : con.After pps con') (h' : con'.After pps con'') :
    con.After pps con'' := by
  obtain ⟨events, rfl⟩ := h
  obtain ⟨events', rfl⟩ := h'
  exact ⟨events ++ events', List.foldl_append.symm⟩

/-- One event. -/
theorem Console.After.event (pps : UInt32) (con : Console) (e : Event) :
    con.After pps (e.apply pps con) := ⟨[e], rfl⟩

/-- A text is a sequence of events. -/
theorem Console.After.print (pps : UInt32) (con : Console) (text : List UInt8) :
    con.After pps (shellPrint con text) := ⟨putAll text, (putAll_apply pps con text).symm⟩

/-- **Invariants of the console.**  What every event keeps holds afterwards. -/
theorem Console.After.keeps {P : Console → Prop} (h : con.After pps con')
    (hevent : ∀ con e, P con → P (Event.apply pps con e)) (hcon : P con) : P con' := by
  obtain ⟨events, rfl⟩ := h
  induction events generalizing con with
  | nil => exact hcon
  | cons e rest ih => exact ih (hevent con e hcon)

/-- An event only adds to the drawing. -/
theorem Event.apply_acts (pps : UInt32) (con : Console) (e : Event) :
    con.acts <+: (e.apply pps con).acts := by
  cases e with
  | put c =>
      rw [Event.apply, shellPutchar]
      split
      · exact List.prefix_rfl
      · dsimp only
        split
        · exact List.prefix_append _ _
        · exact List.prefix_append _ _
  | back => exact List.prefix_append _ _
  | clear => exact List.prefix_append _ _

/-- What has been drawn stays drawn. -/
theorem Console.After.acts (h : con.After pps con') : con.acts <+: con'.acts :=
  h.keeps (P := fun later => con.acts <+: later.acts)
    (fun later e hlater => hlater.trans (e.apply_acts pps later)) List.prefix_rfl

end After

/-- A command prints a text or clears the screen. -/
theorem runLine_cases (K : Kernel) (fs : FssoFilesystem) (t : Nat) (con : Console)
    (line : List UInt8) :
    (∃ text, (runLine K fs t con line).1 = shellPrint con text) ∨
      (runLine K fs t con line).1 = cmdClear K.screen.pps con := by
  rw [runLine]
  cases shellParse line shellMaxArgs with
  | nil => exact Or.inl ⟨[], rfl⟩
  | cons command args =>
      dsimp only
      split
      · exact Or.inl ⟨_, cmdEcho_eq con _⟩
      · split
        · exact Or.inr rfl
        · split
          · exact Or.inl ⟨_, (cmdLs_eq K.drive fs t con).trans (foldl_printLine _ con)⟩
          · split
            · exact Or.inl ⟨_, cmdCat_eq K fs t con _⟩
            · split
              · exact Or.inl ⟨_, foldl_shellPrint ascii helpText con⟩
              · refine Or.inl ⟨ascii "Unknown command: " ++ command ++ [newline], ?_⟩
                rw [shellPrint_append, shellPrint_append, shellPrint_singleton]

/-- A command is a sequence of events. -/
theorem runLine_after (K : Kernel) (fs : FssoFilesystem) (t : Nat) (con : Console)
    (line : List UInt8) : con.After K.screen.pps (runLine K fs t con line).1 := by
  obtain ⟨text, htext⟩ | hclear := runLine_cases K fs t con line
  · rw [htext]
    exact Console.After.print _ con text
  · rw [hclear]
    exact Console.After.event _ con .clear

/-- A key is a sequence of events. -/
theorem pressKey_after (K : Kernel) (fs : FssoFilesystem) (s : State) (scancode : UInt8) :
    s.con.After K.screen.pps (pressKey K fs s scancode).con := by
  simp only [pressKey]
  generalize (readKey s.shiftPressed scancode).1 = c
  by_cases hzero : c = 0
  · rw [if_pos hzero]
    exact Console.After.refl _ _
  · rw [if_neg hzero]
    by_cases hline : c = newline
    · rw [if_pos hline]
      have hnewline := Console.After.event K.screen.pps s.con (.put newline)
      exact (hnewline.trans (runLine_after K fs s.clock _ s.input)).trans
        (Console.After.print _ _ _)
    · rw [if_neg hline]
      split
      · split
        · exact Console.After.event _ s.con .back
        · exact Console.After.refl _ _
      · split
        · exact Console.After.event _ s.con (.put c)
        · exact Console.After.refl _ _

/-- Whatever the drive does, a session is a sequence of events. -/
theorem pressKeys_after (K : Kernel) (fs : FssoFilesystem) (keys : List UInt8) (s : State) :
    s.con.After K.screen.pps (keys.foldl (pressKey K fs) s).con := by
  induction keys generalizing s with
  | nil => exact Console.After.refl _ _
  | cons scancode rest ih =>
      exact (pressKey_after K fs s scancode).trans (ih (pressKey K fs s scancode))

/-- So is the session with its first prompt. -/
theorem shellRun_after (K : Kernel) (fs : FssoFilesystem) (t : Nat) (con : Console)
    (keys : List UInt8) : con.After K.screen.pps (shellRun K fs t con keys).con :=
  (Console.After.print _ con _).trans (pressKeys_after K fs keys ⟨prompt con, [], false, t⟩)

end Shell
