import SimplrOS.AhciProtocol

/-!
# The outcome of one disk command

`ahci_read` as a function of what the controller shows it: the values of `PxCI`
and `PxIS` at each register read, by its number.  The two registers are never
read at the same instant, so the command may finish between any two reads.  The
driver classifies what it has seen: an error that shows while it polls, a clear
`PxCI` bit at its last look, and a timeout otherwise.

The reads are also a run of the driver and the controller on the slot, in which
the controller moves just before the first read that shows the change.
-/

namespace Ahci

open ByteStore History

/-! ## The source -/

/-- What `PORT_CI` and `PORT_IS` hold at the register reads of a call, from the
first after the command was issued on. -/
structure Port where
  ci : Nat → UInt32
  is : Nat → UInt32

/-- `1 << 30`. -/
abbrev tfesBit : UInt32 := 0x40000000

/-- A register read and its number. -/
inductive PortRead
  | ci (t : Nat)
  | is (t : Nat)
deriving DecidableEq

/-- The polling loop when it ends: the reads it made, whether it returns from the
function, and the number of the next read. -/
structure Poll where
  reads : List PortRead
  error : Bool
  clock : Nat

/-- The polling loop with the given number of rounds left. -/
def pollLoop (port : Port) : Nat → Nat → Poll
  | 0, t => ⟨[], false, t⟩
  | rounds+1, t =>
      if port.ci t &&& 1 = 0 then ⟨[.ci t], false, t + 1⟩
      else if port.is (t + 1) &&& tfesBit ≠ 0 then ⟨[.ci t, .is (t + 1)], true, t + 2⟩
      else
        let rest := pollLoop port rounds (t + 2)
        { rest with reads := .ci t :: .is (t + 1) :: rest.reads }

/-- What a call does: its result, the memory when the command is issued, whether
`PORT_CI` is written, the reads of the polling loop and the one behind it. -/
structure Outcome where
  ret : Int
  mem : Bytes
  issued : Bool
  polled : List PortRead
  last : List PortRead

/-- `ahci_read`. -/
def ahciRead (activePort : Option (Fin 32)) (port : Port) (mem : Bytes) (c : ReadCall) : Outcome :=
  match activePort with
  | none => ⟨-1, mem, false, [], []⟩
  | some p =>
      let mem := runStores mem (readStores p c)
      let poll := pollLoop port 1000000 0
      if poll.error then ⟨-1, mem, true, poll.reads, []⟩
      else
        let ret := if port.ci poll.clock &&& 1 ≠ 0 then -2 else 0
        ⟨ret, mem, true, poll.reads, [.ci poll.clock]⟩

/-! ## The controller -/

/-- The state of the command at a read. -/
inductive Status
  | pending
  | completed
  | failed
deriving DecidableEq

/-- The registers show the state of the command: `PxCI` bit 0 is clear when it is
completed, and the task-file-error bit is set when it has failed. -/
structure Port.Shows (port : Port) (status : Nat → Status) : Prop where
  ci : ∀ t, port.ci t &&& 1 = 0 ↔ status t = .completed
  is : ∀ t, port.is t &&& tfesBit ≠ 0 ↔ status t = .failed

/-- The command is pending for any number of reads, or for ever, and what it
becomes it is for good. -/
def Settles (status : Nat → Status) : Prop :=
  ∀ t t', t ≤ t' → status t ≠ .pending → status t' = status t

/-- The number of the last of the reads that is one of `PORT_CI`. -/
def lastCi : List PortRead → Option Nat
  | [] => none
  | .ci t :: rest => (lastCi rest).or (some t)
  | .is _ :: rest => lastCi rest

/-- The command has completed by the last read of `PxCI`. -/
def Outcome.SeesCompletion (o : Outcome) (status : Nat → Status) : Prop :=
  ∃ t, lastCi (o.polled ++ o.last) = some t ∧ status t = .completed

/-- A failure is visible at a read of `PxIS` in the polling loop. -/
def Outcome.SeesFailure (o : Outcome) (status : Nat → Status) : Prop :=
  ∃ t, .is t ∈ o.polled ∧ status t = .failed

/-- Read number `t`: the registers are looked at in turn. -/
def lookAt (t : Nat) : PortRead := if t % 2 = 0 then .ci t else .is t

/-- Read number `t` shows that the command is over. -/
def EndShows (status : Nat → Status) (t : Nat) : Prop :=
  if t % 2 = 0 then status t = .completed else status t = .failed

/-- The driver polls both registers in turn until one shows the end, or for 10^6
rounds, and has a last look at `PxCI` unless it has seen a failure. -/
structure Outcome.Looks (o : Outcome) (status : Nat → Status) (n : Nat) : Prop where
  polled : o.polled = (List.range n).map lookAt
  waits : ∀ t, t + 1 < n → ¬ EndShows status t
  stops : n = 2000000 ∨ (n < 2000000 ∧ ∃ t, t + 1 = n ∧ EndShows status t)
  last : o.last = if o.ret = -1 then [] else [.ci n]

/-- The command is issued and watched to its end, the result says what the driver has
seen, and no failed command passes for a good one. -/
structure Classified (o : Outcome) (status : Nat → Status) : Prop where
  issued : o.issued = true
  looks : ∃ n, o.Looks status n
  success : o.ret = 0 ↔ o.SeesCompletion status
  error : o.ret = -1 ↔ o.SeesFailure status
  timeout : o.ret = -2 ↔ ¬ o.SeesCompletion status ∧ ¬ o.SeesFailure status
  sound : ∀ t, status t = .failed → o.ret ≠ 0

/-- The slot as the system of driver and controller has it. -/
structure System.In (s : System) (st : Status) : Prop where
  ci : s.ci = true ↔ st ≠ .completed
  tfes : s.tfes = true ↔ st = .failed
  failed : s.failed = true ↔ st = .failed

/-! ## The polling loop -/

theorem lastCi_append (reads : List PortRead) (t : Nat) :
    lastCi (reads ++ [.ci t]) = some t := by
  induction reads with
  | nil => rfl
  | cons r rest ih =>
      cases r with
      | ci t' => rw [List.cons_append, lastCi, ih, Option.some_or]
      | is t' => rw [List.cons_append, lastCi, ih]

section Poll

variable {port : Port} {status : Nat → Status}

/-- **Polling.**  The loop returns from the function exactly if one of its reads of
`PxIS` shows the failure, and then its last read of `PxCI` shows no completion. -/
theorem pollLoop_error (h : port.Shows status) (rounds t : Nat) :
    ((pollLoop port rounds t).error = true ↔
      ∃ t', .is t' ∈ (pollLoop port rounds t).reads ∧ status t' = .failed) ∧
    ((pollLoop port rounds t).error = true →
      ∃ t', lastCi (pollLoop port rounds t).reads = some t' ∧ status t' ≠ .completed) := by
  induction rounds generalizing t with
  | zero => simp [pollLoop]
  | succ rounds ih =>
      obtain ⟨herror, hlast⟩ := ih (t + 2)
      have hci := h.ci t
      have his := h.is (t + 1)
      unfold pollLoop
      by_cases hclear : port.ci t &&& 1 = 0
      · rw [if_pos hclear]
        simp
      · rw [if_neg hclear]
        by_cases htfes : port.is (t + 1) &&& tfesBit ≠ 0
        · rw [if_pos htfes]
          refine ⟨iff_of_true rfl ⟨t + 1, by simp, his.mp htfes⟩, fun _ => ⟨t, rfl, ?_⟩⟩
          exact fun hdone => hclear (hci.mpr hdone)
        · rw [if_neg htfes]
          constructor
          · rw [herror]
            constructor
            · intro hboth
              obtain ⟨t', hmem, hfailed⟩ := hboth
              exact ⟨t', List.mem_cons_of_mem _ (List.mem_cons_of_mem _ hmem), hfailed⟩
            · intro hboth
              obtain ⟨t', hmem, hfailed⟩ := hboth
              rcases List.mem_cons.mp hmem with heq | hmem
              · exact absurd heq (by simp)
              · rcases List.mem_cons.mp hmem with heq | hmem
                · cases heq
                  exact absurd (his.mpr hfailed) htfes
                · exact ⟨t', hmem, hfailed⟩
          · intro hbad
            obtain ⟨t', hseen, hne⟩ := hlast hbad
            exact ⟨t', by simp only [lastCi, hseen, Option.some_or], hne⟩

/-- Each round begins with `PORT_CI`. -/
theorem lookAt_ci {t : Nat} (ht : t % 2 = 0) : lookAt t = .ci t := if_pos ht

/-- Each round ends with `PORT_IS`. -/
theorem lookAt_is {t : Nat} (ht : t % 2 = 0) : lookAt (t + 1) = .is (t + 1) :=
  if_neg (by omega)

/-- `PORT_CI` shows a completed command. -/
theorem endShows_ci {t : Nat} (ht : t % 2 = 0) : EndShows status t ↔ status t = .completed :=
  iff_of_eq (if_pos ht)

/-- `PORT_IS` shows a failed command. -/
theorem endShows_is {t : Nat} (ht : t % 2 = 0) :
    EndShows status (t + 1) ↔ status (t + 1) = .failed :=
  iff_of_eq (if_neg (by omega))

/-- The first `n` reads from number `t` on. -/
structure Poll.Looks (poll : Poll) (status : Nat → Status) (t n : Nat) : Prop where
  reads : poll.reads = (List.range n).map fun i => lookAt (t + i)
  clock : poll.clock = t + n
  waits : ∀ i, i + 1 < n → ¬ EndShows status (t + i)

/-- **What the loop looks at.**  It begins with `PxCI` and goes on until the end
shows. -/
theorem pollLoop_looks (h : port.Shows status) (rounds : Nat) {t : Nat} (ht : t % 2 = 0) :
    ∃ n, (pollLoop port rounds t).Looks status t n ∧
      (n = 2 * rounds ∨ (n < 2 * rounds ∧ ∃ i, i + 1 = n ∧ EndShows status (t + i))) := by
  induction rounds generalizing t with
  | zero => exact ⟨0, ⟨rfl, rfl, fun i hi => absurd hi (Nat.not_lt_zero _)⟩, Or.inl rfl⟩
  | succ rounds ih =>
      have hci := h.ci t
      have his := h.is (t + 1)
      have hfirst := lookAt_ci ht
      have hsecond := lookAt_is ht
      unfold pollLoop
      by_cases hclear : port.ci t &&& 1 = 0
      · have hend : EndShows status (t + 0) := (endShows_ci ht).mpr (hci.mp hclear)
        rw [if_pos hclear]
        refine ⟨1, ⟨?_, rfl, fun i hi => by omega⟩, Or.inr ⟨by omega, 0, rfl, hend⟩⟩
        simp [hfirst]
      · have hbusy : ¬ EndShows status t := fun hend => hclear (hci.mpr ((endShows_ci ht).mp hend))
        rw [if_neg hclear]
        by_cases htfes : port.is (t + 1) &&& tfesBit ≠ 0
        · have hend : EndShows status (t + 1) := (endShows_is ht).mpr (his.mp htfes)
          rw [if_pos htfes]
          refine ⟨2, ⟨?_, rfl, fun i hi => ?_⟩, ?_⟩
          · simp [List.range_succ, hfirst, hsecond]
          · obtain rfl : i = 0 := by omega
            exact hbusy
          · cases rounds with
            | zero => exact Or.inl rfl
            | succ rounds => exact Or.inr ⟨by omega, 1, rfl, hend⟩
        · have hlive : ¬ EndShows status (t + 1) :=
            fun hend => htfes (his.mpr ((endShows_is ht).mp hend))
          obtain ⟨n, ⟨hreads, hclock, hwaits⟩, hstops⟩ := ih (t := t + 2) (by omega)
          have hshift : ∀ i, t + 2 + i = t + (i + 2) := fun i => by omega
          rw [if_neg htfes]
          refine ⟨n + 2, ⟨?_, ?_, fun i hi => ?_⟩, ?_⟩
          · dsimp only
            rw [hreads, List.range_succ_eq_map, List.range_succ_eq_map]
            simp [hfirst, hsecond, hshift, Function.comp_def]
          · dsimp only
            omega
          · match i with
            | 0 => exact hbusy
            | 1 => exact hlive
            | i + 2 =>
                rw [← hshift]
                exact hwaits i (by omega)
          · rcases hstops with hall | ⟨hlt, i, hi, hend⟩
            · exact Or.inl (by omega)
            · refine Or.inr ⟨by omega, i + 2, by omega, ?_⟩
              rw [← hshift]
              exact hend

/-- No failed command is seen completed. -/
theorem Settles.not_failed (h : Settles status) {t t' : Nat} (hdone : status t = .completed) :
    status t' ≠ .failed := by
  intro hfailed
  rcases Nat.le_total t t' with hle | hle
  · have hsame := h t t' hle (by simp [hdone])
    rw [hdone, hfailed] at hsame
    cases hsame
  · have hsame := h t' t hle (by simp [hfailed])
    rw [hdone, hfailed] at hsame
    cases hsame

/-- **Classification.**  Whenever the command completes or fails, if it does, it is
watched until the end shows or the time is over, and the result is 0 exactly if it has
completed by the last read of `PxCI`, -1 exactly if the failure shows at a read of
`PxIS` in the loop, and -2 otherwise. -/
theorem ahciRead_classified (h : port.Shows status) (hsettles : Settles status) (p : Fin 32)
    (mem : Bytes) (c : ReadCall) : Classified (ahciRead (some p) port mem c) status := by
  obtain ⟨herror, hlast⟩ := pollLoop_error h 1000000 0
  obtain ⟨n, hlooks, hstops⟩ := pollLoop_looks h 1000000 (Nat.zero_mod 2)
  obtain ⟨poll, hpoll⟩ : ∃ poll, poll = pollLoop port 1000000 0 := ⟨_, rfl⟩
  simp only [ahciRead]
  rw [← hpoll] at herror hlast hlooks ⊢
  have hclock : poll.clock = n := hlooks.clock.trans (Nat.zero_add n)
  have hpolled : poll.reads = (List.range n).map lookAt := by
    rw [hlooks.reads]
    simp only [Nat.zero_add]
  have hwaits : ∀ t, t + 1 < n → ¬ EndShows status t := by
    intro t ht
    have hwait := hlooks.waits t ht
    rwa [Nat.zero_add] at hwait
  have hstop : n = 2000000 ∨ (n < 2000000 ∧ ∃ t, t + 1 = n ∧ EndShows status t) := by
    simpa only [Nat.zero_add] using hstops
  by_cases hbad : poll.error = true
  · rw [if_pos hbad]
    have hfailure := herror.mp hbad
    obtain ⟨last, hseen, hne⟩ := hlast hbad
    have hnone : ¬ Outcome.SeesCompletion
        ⟨-1, runStores mem (readStores p c), true, poll.reads, []⟩ status := by
      intro hboth
      obtain ⟨t, ht, hdone⟩ := hboth
      rw [List.append_nil, hseen, Option.some.injEq] at ht
      subst ht
      exact hne hdone
    exact ⟨rfl, ⟨n, hpolled, hwaits, hstop, rfl⟩, iff_of_false (by simp) hnone,
      iff_of_true rfl hfailure, iff_of_false (by simp) fun hboth => hboth.2 hfailure,
      fun _ _ => by simp⟩
  · rw [if_neg hbad]
    have hnone : ¬ Outcome.SeesFailure ⟨if port.ci poll.clock &&& 1 ≠ 0 then -2 else 0,
        runStores mem (readStores p c), true, poll.reads, [.ci poll.clock]⟩ status :=
      fun hfailure => hbad (herror.mpr hfailure)
    have hsees : Outcome.SeesCompletion ⟨if port.ci poll.clock &&& 1 ≠ 0 then -2 else 0,
        runStores mem (readStores p c), true, poll.reads, [.ci poll.clock]⟩ status ↔
          status poll.clock = .completed := by
      simp only [Outcome.SeesCompletion, lastCi_append, Option.some.injEq, exists_eq_left']
    have hci := h.ci poll.clock
    have hlooked : ∀ ret : Int, ret ≠ -1 → Outcome.Looks
        ⟨ret, runStores mem (readStores p c), true, poll.reads, [.ci poll.clock]⟩ status n := by
      intro ret hret
      refine ⟨hpolled, hwaits, hstop, ?_⟩
      rw [if_neg hret, hclock]
    by_cases hdone : status poll.clock = .completed
    · have hclear := hci.mpr hdone
      refine ⟨rfl, ⟨n, hlooked _ ?_⟩, iff_of_true ?_ (hsees.mpr hdone), iff_of_false ?_ hnone,
        iff_of_false ?_ ?_, ?_⟩
      · simp [hclear]
      · simp [hclear]
      · simp [hclear]
      · simp [hclear]
      · exact fun hboth => hboth.1 (hsees.mpr hdone)
      · exact fun t hfailed => absurd hfailed (hsettles.not_failed hdone)
    · have hset : port.ci poll.clock &&& 1 ≠ 0 := fun hclear => hdone (hci.mp hclear)
      refine ⟨rfl, ⟨n, hlooked _ ?_⟩, iff_of_false ?_ fun hboth => hdone (hsees.mp hboth),
        iff_of_false ?_ hnone, iff_of_true ?_ ⟨fun hboth => hdone (hsees.mp hboth), hnone⟩,
        fun _ _ => ?_⟩
      · simp [hset]
      · simp [hset]
      · simp [hset]
      · simp [hset]
      · simp [hset]

end Poll

/-! ## The same call as a run -/

section Run

variable {port : Port} {status : Nat → Status}

/-- The controller can take the slot from what it was at one read to what it is at
the next. -/
theorem System.In.advance (p : Fin 32) (regs : PortRegs) {s : System} {st st' : Status}
    (h : s.In st) (hnext : st ≠ .pending → st' = st) :
    ∃ moves s', Run (Step (some p) regs) s moves s' ∧ s'.In st' ∧ s'.pc = s.pc := by
  by_cases hsame : st' = st
  · subst hsame
    exact ⟨[], s, Run.start, h, rfl⟩
  · have hpending : st = .pending := Classical.byContradiction fun hne => hsame (hnext hne)
    subst hpending
    have hci : s.ci = true := h.ci.mpr (by simp)
    have hlive : s.failed = false := by
      rw [← Bool.not_eq_true, h.failed]
      simp
    have htfes : s.tfes = false := by
      rw [← Bool.not_eq_true, h.tfes]
      simp
    cases st' with
    | pending => exact absurd rfl hsame
    | completed =>
        exact ⟨_, _, Run.single (Step.complete hci hlive),
          ⟨by simp, by simp [htfes], by simp [hlive]⟩, rfl⟩
    | failed =>
        exact ⟨_, _, Run.single (Step.fail hci hlive), ⟨by simp [hci], by simp, by simp⟩, rfl⟩

/-- Where the polling loop leaves the system. -/
def Polled (port : Port) (status : Nat → Status) (rounds t : Nat) (moves : List (System × Event))
    (s : System) : Prop :=
  if (pollLoop port rounds t).error = true then
    ∃ s' earlier, moves = (s', Event.ret (-1)) :: earlier
  else
    s.pc = .check ∧ ∃ last, s.In last ∧
      (last ≠ .pending → status (pollLoop port rounds t).clock = last)

/-- **The loop as a run**, by induction on the rounds left. -/
theorem run_pollLoop (p : Fin 32) (regs : PortRegs) (h : port.Shows status)
    (hsettles : Settles status) {rounds t : Nat} {s : System} {last : Status}
    (hrounds : rounds ≤ 1000000) (hpc : s.pc = .pollCi (1000000 - rounds)) (hin : s.In last)
    (hlast : last ≠ .pending → status t = last) :
    ∃ moves s', Run (Step (some p) regs) s moves s' ∧ Polled port status rounds t moves s' := by
  induction rounds generalizing t s last with
  | zero =>
      refine ⟨_, _, Run.single (Step.pollLimit hpc (by omega)), ?_⟩
      exact ⟨rfl, last, ⟨hin.ci, hin.tfes, hin.failed⟩, hlast⟩
  | succ rounds ih =>
      obtain ⟨moves, s₁, run, hin₁, hpc₁⟩ := hin.advance p regs hlast
      rw [hpc] at hpc₁
      have hkeep : status t ≠ .pending → status (t + 1) = status t :=
        hsettles t (t + 1) (Nat.le_succ t)
      unfold Polled pollLoop
      by_cases hclear : port.ci t &&& 1 = 0
      · have hdone := (h.ci t).mp hclear
        have hci : s₁.ci = false := by
          rw [← Bool.not_eq_true, hin₁.ci]
          exact fun hne => hne hdone
        refine ⟨_, _, Run.next run (Step.pollClear hpc₁ (by omega) hci), ?_⟩
        rw [if_pos hclear]
        exact ⟨rfl, status t, ⟨hin₁.ci, hin₁.tfes, hin₁.failed⟩, hkeep⟩
      · have hci : s₁.ci = true := hin₁.ci.mpr fun hdone => hclear ((h.ci t).mpr hdone)
        have hpolled : System.In { s₁ with pc := .pollIs (1000000 - (rounds + 1)) } (status t) :=
          ⟨hin₁.ci, hin₁.tfes, hin₁.failed⟩
        have hbusy := Run.next run (Step.pollBusy hpc₁ (by omega) hci)
        obtain ⟨moves', s₂, run', hin₂, hpc₂⟩ := hpolled.advance p regs hkeep
        have hrun := hbusy.trans run'
        rw [if_neg hclear]
        by_cases htfes : port.is (t + 1) &&& tfesBit ≠ 0
        · have hbad : s₂.tfes = true := hin₂.tfes.mpr ((h.is (t + 1)).mp htfes)
          rw [if_pos htfes]
          exact ⟨_, _, Run.next hrun (Step.pollError hpc₂ hbad), _, _, rfl⟩
        · have hgood : s₂.tfes = false := by
            rw [← Bool.not_eq_true, hin₂.tfes]
            exact fun hfailed => htfes ((h.is (t + 1)).mpr hfailed)
          have hagain := Run.next hrun (Step.pollAgain hpc₂ hgood)
          have hround : 1000000 - (rounds + 1) + 1 = 1000000 - rounds := by omega
          rw [hround] at hagain
          obtain ⟨moves'', s', hrest, hpolled'⟩ :=
            ih (t := t + 2) (s := { s₂ with pc := .pollCi (1000000 - rounds) }) (by omega) rfl
              ⟨hin₂.ci, hin₂.tfes, hin₂.failed⟩ (hsettles (t + 1) (t + 2) (Nat.le_succ _))
          rw [if_neg htfes]
          refine ⟨_, s', hagain.trans hrest, ?_⟩
          unfold Polled at hpolled'
          dsimp only
          split at hpolled'
          · rename_i herror
            obtain ⟨s'', earlier, hmoves⟩ := hpolled'
            rw [if_pos herror, hmoves]
            exact ⟨s'', _, rfl⟩
          · rename_i herror
            rw [if_neg herror]
            exact hpolled'

/-- **The call as a run.**  From an idle driver and a free slot, the driver and the
controller can run through the call: it issues its command with the memory of the call,
and returns its result. -/
theorem ahciRead_run (p : Fin 32) (regs : PortRegs) (h : port.Shows status)
    (hsettles : Settles status) {s : System} {c : ReadCall} {rest : List ReadCall}
    (hpc : s.pc = .idle) (htodo : s.todo = c :: rest) (hfree : s.ci = false) :
    ∃ later s₀ earlier s₁ s', Run (Step (some p) regs) s
        ((s₁, Event.ret (ahciRead (some p) port s.mem c).ret) ::
          (later ++ (s₀, .issue) :: earlier)) s' ∧
      s₀.mem = (ahciRead (some p) port s.mem c).mem := by
  obtain ⟨moves, run, _⟩ := run_to_issue p regs s hpc htodo
  have hissue := Run.next run (Step.issue rfl)
  rw [System.issueCommand, if_neg (by rw [hfree]; decide)] at hissue
  obtain ⟨issued, hissue, hready, hpending⟩ : ∃ issued, Run (Step (some p) regs) s _ issued ∧
      issued.pc = .pollCi (1000000 - 1000000) ∧ issued.In .pending :=
    ⟨_, hissue, rfl, by simp, by simp, by simp⟩
  obtain ⟨moves', s', hpoll, hpolled⟩ := run_pollLoop p regs h hsettles (t := 0)
    (Nat.le_refl _) hready hpending fun hne => absurd rfl hne
  have hall := hissue.trans hpoll
  unfold Polled at hpolled
  simp only [ahciRead]
  split at hpolled
  · rename_i herror
    obtain ⟨s₁, earlier, hmoves⟩ := hpolled
    rw [hmoves] at hall
    rw [if_pos herror]
    exact ⟨earlier, _, moves, s₁, s', hall, rfl⟩
  · rename_i herror
    obtain ⟨hcheck, last, hin, hlast⟩ := hpolled
    obtain ⟨moves'', s₁, run', hin₁, hpc₁⟩ := hin.advance p regs hlast
    have hlooked := hall.trans run'
    rw [hcheck] at hpc₁
    rw [← List.append_assoc] at hlooked
    rw [if_neg herror]
    by_cases hclear : port.ci (pollLoop port 1000000 0).clock &&& 1 = 0
    · have hci : s₁.ci = false := by
        rw [← Bool.not_eq_true, hin₁.ci]
        exact fun hne => hne ((h.ci _).mp hclear)
      rw [if_neg (not_not.mpr hclear)]
      exact ⟨moves'' ++ moves', _, moves, s₁, _,
        Run.next hlooked (Step.checkClear hpc₁ hci), rfl⟩
    · have hci : s₁.ci = true := hin₁.ci.mpr fun hdone => hclear ((h.ci _).mpr hdone)
      rw [if_pos hclear]
      exact ⟨moves'' ++ moves', _, moves, s₁, _,
        Run.next hlooked (Step.checkBusy hpc₁ hci), rfl⟩

end Run

/-- A port whose command completes before its fourth register read. -/
def latePort : Port := ⟨fun t => if t < 3 then 1 else 0, fun _ => 0⟩

/-- A command that is completed before the third read. -/
def lateStatus (t : Nat) : Status := if t < 3 then .pending else .completed

theorem latePort_shows : latePort.Shows lateStatus := by
  refine ⟨fun t => ?_, fun t => ?_⟩
  · by_cases ht : t < 3 <;> simp [latePort, lateStatus, ht]
  · by_cases ht : t < 3 <;> simp [latePort, lateStatus, ht]

theorem lateStatus_settles : Settles lateStatus := by
  intro t t' hle hne
  have ht : ¬ t < 3 := fun hlt => hne (by simp [lateStatus, hlt])
  have ht' : ¬ t' < 3 := by omega
  simp [lateStatus, ht, ht']

/-- The late command is classified. -/
theorem ahciRead_classified_late :
    Classified (ahciRead (some 0) latePort (fun _ => 0) ⟨0, 2, 0x300000⟩) lateStatus :=
  ahciRead_classified latePort_shows lateStatus_settles 0 (fun _ => 0) ⟨0, 2, 0x300000⟩

end Ahci
