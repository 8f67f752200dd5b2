import SimplrOS.Shell

/-!
# The two Shift keys

The keyboard sends a make code when a key is pressed and a break code when it is
released; an extended key has `E0` in front of both.  `read_key` keeps one flag for two
Shift keys and skips the prefix.  So the flag says whether a Shift key is held as long
as none is released while the other one is down, and no extended key sends the code of
a Shift key at the wrong time, as Print Screen does.
-/

namespace Shell

/-! ## The keyboard -/

/-- The keys, by their make codes.  The Shift codes that Print Screen and the navigation
keys send in front of their own are those of the extended keys `2A` and `36`. -/
inductive Key
  | plain (code : Fin 128)
  | extended (code : Fin 128)
  | pause
deriving DecidableEq

/-- A key goes down or up. -/
inductive KeyEvent
  | press (key : Key)
  | release (key : Key)

/-- The left Shift key. -/
abbrev leftShift : Key := .plain 0x2A

/-- The right Shift key. -/
abbrev rightShift : Key := .plain 0x36

/-- The scancode of a key that goes down. -/
def makeCode (code : Fin 128) : UInt8 := UInt8.ofNat code

/-- The scancode of a key that comes up: bit 7 is set. -/
def breakCode (code : Fin 128) : UInt8 := UInt8.ofNat (128 + code)

/-- The scancodes sent for an event. -/
def KeyEvent.codes : KeyEvent → List UInt8
  | .press (.plain code) => [makeCode code]
  | .press (.extended code) => [0xE0, makeCode code]
  | .press .pause => [0xE1, 0x1D, 0x45, 0xE1, 0x9D, 0xC5]
  | .release (.plain code) => [breakCode code]
  | .release (.extended code) => [0xE0, breakCode code]
  | .release .pause => []

/-- The keys held after an event. -/
def KeyEvent.update (held : Key → Bool) : KeyEvent → Key → Bool
  | .press key => Function.update held key true
  | .release key => Function.update held key false

/-- The keys held after a sequence of events. -/
def heldAfter (events : List KeyEvent) : Key → Bool :=
  events.foldl KeyEvent.update fun _ => false

/-- Some Shift key is held. -/
def shiftHeld (held : Key → Bool) : Bool := held leftShift || held rightShift

/-! ## What `read_key` should do -/

/-- The entry of the map in force. -/
def mapEntry (shift : Bool) (code : Fin 128) : UInt8 :=
  if shift then scancodeMapShift.getD code 0 else scancodeMap.getD code 0

/-- The characters for the scancodes of an event; only the make code of a key has one. -/
def KeyEvent.chars (shift : Bool) : KeyEvent → List UInt8
  | .press (.plain code) => [mapEntry shift code]
  | .press (.extended code) => [0, mapEntry shift code]
  | .press .pause => [0, 0, 0, 0, 0, 0]
  | .release (.plain _) => [0]
  | .release (.extended _) => [0, 0]
  | .release .pause => []

/-- The character returned and `shift_pressed` after each `read_key`. -/
def readAll (shiftPressed : Bool) : List UInt8 → List (UInt8 × Bool)
  | [] => []
  | code :: rest => readKey shiftPressed code :: readAll (readKey shiftPressed code).2 rest

/-- `shift_pressed` after the scancodes. -/
def flagAfter (shiftPressed : Bool) (codes : List UInt8) : Bool :=
  codes.foldl (fun flag code => (readKey flag code).2) shiftPressed

/-- After each `read_key` of the event the flag is as the Shift keys are, and the
character is that of the pressed key. -/
@[mk_iff]
structure StepTracks (held : Key → Bool) (shiftPressed : Bool) (e : KeyEvent) : Prop where
  reads : readAll shiftPressed e.codes =
    (e.chars (shiftHeld (e.update held))).map fun c => (c, shiftHeld (e.update held))
  flag : flagAfter shiftPressed e.codes = shiftHeld (e.update held)

/-- So it is for every event, from keys `held` and flag `shiftPressed` on. -/
def Tracks (held : Key → Bool) (shiftPressed : Bool) : List KeyEvent → Prop
  | [] => True
  | e :: rest => StepTracks held shiftPressed e ∧
      Tracks (e.update held) (flagAfter shiftPressed e.codes) rest

/-- The event leaves the flag wrong: a Shift key is released while the other one is held,
or an extended key sends a Shift code that is not the state of the Shift keys. -/
def Disturbs (held : Key → Bool) : KeyEvent → Bool
  | .release (.plain code) =>
      (code = 0x2A && held rightShift) || (code = 0x36 && held leftShift)
  | .release (.extended code) => (code = 0x2A || code = 0x36) && shiftHeld held
  | .press (.extended code) => (code = 0x2A || code = 0x36) && !shiftHeld held
  | _ => false

/-! ## One scancode -/

theorem readKey_make : ∀ (flag : Bool) (code : Fin 128), readKey flag (makeCode code) =
    if code = 0x2A ∨ code = 0x36 then (0, true) else (mapEntry flag code, flag) := by
  decide +kernel

theorem readKey_break : ∀ (flag : Bool) (code : Fin 128), readKey flag (breakCode code) =
    if code = 0x2A ∨ code = 0x36 then (0, false) else (0, flag) := by
  decide +kernel

/-- The prefix of an extended key is skipped. -/
theorem readKey_prefix (flag : Bool) : readKey flag 0xE0 = (0, flag) := by
  cases flag <;> rfl

theorem mapEntry_shift : ∀ (shift : Bool) (code : Fin 128), code = 0x2A ∨ code = 0x36 →
    mapEntry shift code = 0 := by
  decide +kernel

/-! ## One event -/

theorem shiftHeld_plain (held : Key → Bool) (code : Fin 128) (down : Bool) :
    shiftHeld (Function.update held (.plain code) down) =
      if code = 0x2A then down || held rightShift
      else if code = 0x36 then held leftShift || down
      else shiftHeld held := by
  by_cases hleft : code = 0x2A
  · rw [hleft, if_pos rfl, shiftHeld, Function.update_self, Function.update_of_ne (by decide)]
  · have hne : leftShift ≠ .plain code := fun heq => hleft (Key.plain.inj heq).symm
    rw [if_neg hleft, shiftHeld, Function.update_of_ne hne]
    by_cases hright : code = 0x36
    · rw [hright, if_pos rfl, Function.update_self]
    · have hne' : rightShift ≠ .plain code := fun heq => hright (Key.plain.inj heq).symm
      rw [if_neg hright, Function.update_of_ne hne', shiftHeld]

theorem shiftHeld_other (held : Key → Bool) {key : Key} (hleft : leftShift ≠ key)
    (hright : rightShift ≠ key) (down : Bool) :
    shiftHeld (Function.update held key down) = shiftHeld held := by
  rw [shiftHeld, Function.update_of_ne hleft, Function.update_of_ne hright, shiftHeld]

section Step

attribute [local simp] KeyEvent.codes KeyEvent.chars KeyEvent.update Disturbs readAll flagAfter
  readKey_make readKey_break readKey_prefix

variable (held : Key → Bool) (code : Fin 128)

theorem stepTracks_pressPlain : StepTracks held (shiftHeld held) (.press (.plain code)) := by
  have hshift := shiftHeld_plain held code true
  by_cases hcode : code = 0x2A ∨ code = 0x36
  · have hdown : shiftHeld (Function.update held (.plain code) true) = true := by
      rw [hshift]
      rcases hcode with hleft | hright
      · simp [hleft]
      · simp [hright]
    constructor <;>
      simp [hcode, hdown, mapEntry_shift true code hcode]
  · obtain ⟨hleft, hright⟩ := not_or.mp hcode
    rw [if_neg hleft, if_neg hright] at hshift
    constructor <;>
      simp [hcode, hshift]

theorem stepTracks_pressExtended :
    StepTracks held (shiftHeld held) (.press (.extended code)) ↔
      Disturbs held (.press (.extended code)) = false := by
  have hshift : shiftHeld (Function.update held (.extended code) true) = shiftHeld held :=
    shiftHeld_other held (by simp) (by simp) true
  rw [stepTracks_iff]
  by_cases hcode : code = 0x2A ∨ code = 0x36
  · have hentry := mapEntry_shift (shiftHeld held) code hcode
    simp [hcode, hshift, hentry]
  · simp [hcode, hshift]

theorem stepTracks_releasePlain :
    StepTracks held (shiftHeld held) (.release (.plain code)) ↔
      Disturbs held (.release (.plain code)) = false := by
  have hshift := shiftHeld_plain held code false
  rw [stepTracks_iff]
  by_cases hleft : code = 0x2A
  · rw [hleft, if_pos rfl, Bool.false_or] at hshift
    simp [hleft, hshift]
  · by_cases hright : code = 0x36
    · rw [if_neg hleft, hright, if_pos rfl, Bool.or_false] at hshift
      simp [hright, hshift]
    · simp [hleft, hright, hshift]

theorem stepTracks_releaseExtended :
    StepTracks held (shiftHeld held) (.release (.extended code)) ↔
      Disturbs held (.release (.extended code)) = false := by
  have hshift : shiftHeld (Function.update held (.extended code) false) = shiftHeld held :=
    shiftHeld_other held (by simp) (by simp) false
  rw [stepTracks_iff]
  by_cases hcode : code = 0x2A ∨ code = 0x36
  · simp [hcode, hshift]
  · simp [hcode, hshift]

omit code in
theorem stepTracks_pressPause : StepTracks held (shiftHeld held) (.press .pause) := by
  have hshift : shiftHeld (Function.update held .pause true) = shiftHeld held :=
    shiftHeld_other held (by simp) (by simp) true
  constructor
  · rw [KeyEvent.update, hshift]
    cases shiftHeld held <;> rfl
  · rw [KeyEvent.update, hshift]
    cases shiftHeld held <;> rfl

omit code in
theorem stepTracks_releasePause : StepTracks held (shiftHeld held) (.release .pause) := by
  have hshift : shiftHeld (Function.update held .pause false) = shiftHeld held :=
    shiftHeld_other held (by simp) (by simp) false
  exact ⟨rfl, hshift.symm⟩

end Step

/-- **Step lemma.**  With the flag right before it, an event is tracked unless it disturbs. -/
theorem stepTracks_iff_not_disturbs (held : Key → Bool) (e : KeyEvent) :
    StepTracks held (shiftHeld held) e ↔ Disturbs held e = false := by
  cases e with
  | press key =>
      cases key with
      | plain code => exact iff_of_true (stepTracks_pressPlain held code) rfl
      | extended code => exact stepTracks_pressExtended held code
      | pause => exact iff_of_true (stepTracks_pressPause held) rfl
  | release key =>
      cases key with
      | plain code => exact stepTracks_releasePlain held code
      | extended code => exact stepTracks_releaseExtended held code
      | pause => exact iff_of_true (stepTracks_releasePause held) rfl

/-- **Run lemma.** -/
theorem tracks_iff_from (held : Key → Bool) (events : List KeyEvent) :
    Tracks held (shiftHeld held) events ↔
      ∀ before e after, events = before ++ e :: after →
        Disturbs (before.foldl KeyEvent.update held) e = false := by
  induction events generalizing held with
  | nil => exact iff_of_true trivial fun before e after hsplit => by simp at hsplit
  | cons e rest ih =>
      have hstep := stepTracks_iff_not_disturbs held e
      constructor
      · intro htracks before e' after hsplit
        have hrest := htracks.2
        rw [htracks.1.flag, ih] at hrest
        cases before with
        | nil =>
            obtain ⟨rfl, rfl⟩ := List.cons.inj hsplit
            exact hstep.mp htracks.1
        | cons first before =>
            obtain ⟨rfl, hsplit'⟩ := List.cons.inj hsplit
            exact hrest before e' after hsplit'
      · intro h
        have htracked := hstep.mpr (h [] e rest rfl)
        refine ⟨htracked, ?_⟩
        rw [htracked.flag, ih]
        intro before e' after hsplit
        exact h (e :: before) e' after (by rw [hsplit, List.cons_append])

/-- **The Shift keys.**  From a keyboard with no key down, every `read_key` of a sequence
of events is right exactly if no event disturbs the flag. -/
theorem shiftKeys_tracked_iff (events : List KeyEvent) :
    Tracks (fun _ => false) false events ↔
      ∀ before e after, events = before ++ e :: after → Disturbs (heldAfter before) e = false :=
  tracks_iff_from (fun _ => false) events

/-- Both Shift keys pressed, one released, and the key of `a` (`1E`) pressed. -/
def overlappingShifts : List KeyEvent :=
  [.press leftShift, .press rightShift, .release leftShift, .press (.plain 0x1E)]

/-- A Shift key is held, but the character is a small letter. -/
theorem overlappingShifts_not_tracked :
    shiftHeld (heldAfter overlappingShifts) = true ∧
    readAll false (overlappingShifts.flatMap KeyEvent.codes) =
      [(0, true), (0, true), (0, false), (97, false)] ∧
    mapEntry true 0x1E = 65 ∧ ¬ Tracks (fun _ => false) false overlappingShifts := by
  refine ⟨by decide, by decide, by decide, fun htracks => ?_⟩
  have hlost := htracks.2.2.1.flag
  exact absurd hlost (by decide)

end Shell
