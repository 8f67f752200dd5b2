import SimplrOS.DiskTransfer

/-!
# Runs of the driver as drives

The file-system reader is modelled over a drive whose reads succeed or fail one by one.
Here is what becomes of this in the driver.

`driveOf` reads a drive off a run of `read_block` calls: its reads succeed up to the
first call that does not return 0, and from there on leave what the run has left in
their buffers.  `run_is_drive` shows that the run does what this drive says, whatever
the controller does once a call has failed.  `error_is_final` shows that nothing is lost by
giving up there after an error of the device: the command stays in the slot, so the driver
goes on storing into it and never returns 0 again.
-/

namespace Ahci

open ByteStore Fsso History

/-! ## The drive of a run -/

/-- The drive that a run of `read_block` calls shows: a read succeeds if every return up
to it was 0, and otherwise leaves what the run has left. -/
def driveOf (disk : Bytes) (blocks : List (UInt32 × UInt64)) (moves : List (System × Event)) :
    Drive :=
  { zeroMemory with
    disk := disk
    fate := fun n => ((returns moves).take (n + 1)).all fun r => r.2 == 0
    residue := fun n buffer i =>
      match (returns moves)[n]?, blocks[n]? with
      | some r, some block => r.1.mem (block.2.toNat + i)
      | _, _ => buffer i }

section Returns

variable {moves : List (System × Event)} {n : Nat} {s : System} {code : Int}

/-- A return comes after those before it. -/
theorem returns_split (h : (returns moves)[n]? = some (s, code)) :
    ∃ later earlier, moves = later ++ (s, Event.ret code) :: earlier ∧
      returns earlier = (returns moves).take n ∧ (returns earlier).length = n := by
  induction moves with
  | nil => cases h
  | cons move earlier ih =>
      rw [returns] at h ⊢
      by_cases hn : n < (returns earlier).length
      · rw [List.getElem?_append_left hn] at h
        obtain ⟨later, first, rfl, htake, hlen⟩ := ih h
        refine ⟨move :: later, first, rfl, ?_, hlen⟩
        rw [htake, List.take_append_of_le_length (Nat.le_of_lt hn)]
      · rw [List.getElem?_append_right (Nat.le_of_not_lt hn)] at h
        obtain ⟨s', e⟩ := move
        cases e with
        | ret code' =>
            rw [returned, List.getElem?_singleton] at h
            split at h
            case isTrue hlast =>
              cases h
              have hlen : (returns earlier).length = n := by omega
              refine ⟨[], earlier, rfl, ?_, hlen⟩
              rw [← hlen, List.take_left]
            case isFalse => cases h
        | _ => cases h

end Returns

/-! ## The calls of a run -/

/-- A call is being made. -/
def Pc.busy : Pc → Nat
  | .idle => 0
  | _ => 1

section Calls

variable {disk mem : Bytes} {p : Fin 32} {port : Option (Fin 32)} {regs : PortRegs}
  {calls : List ReadCall} {moves : List (System × Event)} {s s' : System} {e : Event}

/-- Every call begun has returned, apart from the one that is being made. -/
theorem run_counted (run : Run (Step (some p) regs) (System.start mem calls) moves s) :
    (returns moves).length + s.pc.busy = s.call ∧ s.call + s.todo.length = calls.length := by
  induction run with
  | start => exact ⟨rfl, Nat.zero_add _⟩
  | @next moves s s' e _ move ih =>
      obtain ⟨hcall, htodo⟩ := ih
      rw [returns, List.length_append]
      cases move with
      | noPort hport hpc hcalls => cases hport
      | begin hport hpc hcalls =>
          rw [hpc] at hcall
          rw [hcalls] at htodo
          simp only [returned, Pc.busy, List.length_cons, List.length_nil] at hcall htodo ⊢
          omega
      | store hpc =>
          rw [hpc] at hcall
          exact ⟨hcall, htodo⟩
      | clearIs hpc =>
          rw [hpc] at hcall
          exact ⟨hcall, htodo⟩
      | issue hpc =>
          rw [hpc] at hcall
          rw [System.issueCommand]
          split
          · exact ⟨hcall, htodo⟩
          · exact ⟨hcall, htodo⟩
      | pollBusy hpc hlimit hci =>
          rw [hpc] at hcall
          exact ⟨hcall, htodo⟩
      | pollClear hpc hlimit hci =>
          rw [hpc] at hcall
          exact ⟨hcall, htodo⟩
      | pollLimit hpc hlimit =>
          rw [hpc] at hcall
          exact ⟨hcall, htodo⟩
      | pollError hpc htfes =>
          rw [hpc] at hcall
          exact ⟨hcall, htodo⟩
      | pollAgain hpc htfes =>
          rw [hpc] at hcall
          exact ⟨hcall, htodo⟩
      | checkBusy hpc hci =>
          rw [hpc] at hcall
          exact ⟨hcall, htodo⟩
      | checkClear hpc hci =>
          rw [hpc] at hcall
          exact ⟨hcall, htodo⟩
      | complete hci hlive => exact ⟨hcall, htodo⟩
      | fail hci hlive => exact ⟨hcall, htodo⟩
      | dma harea => exact ⟨hcall, htodo⟩

/-- A call that returns has been begun. -/
theorem busy_of_ret {code : Int} (move : Step (some p) regs s (.ret code) s') :
    s.pc.busy = 1 := by
  cases move with
  | noPort hport hpc hcalls => cases hport
  | pollError hpc htfes => rw [hpc]; rfl
  | checkBusy hpc hci => rw [hpc]; rfl
  | checkClear hpc hci => rw [hpc]; rfl

/-! ## Errors of the device -/

/-- The command in the slot has failed, and none has been accepted since. -/
structure Stuck (accepted : List Nat) (s : System) : Prop where
  busy : s.ci = true
  failed : s.failed = true
  same : s.accepted = accepted

/-- **Step lemma.**  A failed command stays in the slot. -/
theorem Stuck.step {accepted : List Nat} (h : Stuck accepted s)
    (move : Step port regs s e s') : Stuck accepted s' := by
  cases move with
  | issue hpc =>
      rw [System.issueCommand, if_pos h.busy]
      exact ⟨h.busy, h.failed, h.same⟩
  | complete hci hlive =>
      rw [h.failed] at hlive
      cases hlive
  | fail hci hlive =>
      rw [h.failed] at hlive
      cases hlive
  | _ => exact ⟨h.busy, h.failed, h.same⟩

/-- The slot as a failing command leaves it. -/
theorem Stuck.of_fail (move : Step port regs s .fail s') : Stuck s.accepted s' := by
  cases move with
  | fail hci hlive => exact ⟨hci, rfl, rfl⟩

end Calls

/-! ## Calls that fail -/

section Failures

variable {p : Fin 32} {regs : PortRegs}

/-- The controller gives up on the command of a call, which returns -1. -/
theorem run_failed (disk : Bytes) (regs : PortRegs) {c : ReadCall} {s : System}
    {rest : List ReadCall} (hpc : s.pc = .idle) (hci : s.ci = false) (htodo : s.todo = c :: rest) :
    ∃ before after s₀ s', Run (Step (some p) regs) s (after ++ (s₀, .fail) :: before) s' ∧
      s'.pc = .idle ∧ s'.ci = true ∧ s'.todo = rest ∧
      (∃ s₁, returns (after ++ (s₀, .fail) :: before) = [(s₁, -1)]) ∧
      ∀ s₁ e, (s₁, e) ∈ after ++ (s₀, .fail) :: before → Serves disk p s₁ e := by
  obtain ⟨before, hissue, hsilent, hserved⟩ := run_issued p disk regs hpc hci htodo
  let broken : System := { s.issued p c rest with failed := true, tfes := true }
  have hfail : Run (Step (some p) regs) s _ broken := Run.next hissue (Step.fail rfl rfl)
  have hpoll : Run (Step (some p) regs) s _ { broken with pc := .pollIs 0 } :=
    Run.next hfail (Step.pollBusy rfl (by decide : 0 < 1000000) rfl)
  have hret : Run (Step (some p) regs) s
      ([({ broken with pc := .pollIs 0 }, .ret (-1)), (broken, .poll)] ++
        (s.issued p c rest, .fail) :: before) { broken with pc := .idle } :=
    Run.next hpoll (Step.pollError rfl rfl)
  refine ⟨before, _, _, _, hret, rfl, rfl, rfl, ⟨{ broken with pc := .pollIs 0 }, ?_⟩,
    fun s₁ e hmem => ?_⟩
  · simp only [List.cons_append, List.nil_append, returns, returned, hsilent]
  · simp only [List.cons_append, List.nil_append, List.mem_cons] at hmem
    rcases hmem with hreturned | hpolled | hfailed | hearlier
    · cases hreturned
      trivial
    · cases hpolled
      trivial
    · cases hfailed
      trivial
    · exact hserved s₁ e hearlier

/-- Polling a busy slot comes to an end. -/
theorem run_polls (regs : PortRegs) {s : System} {timeout : Nat}
    (hpc : s.pc = .pollCi timeout) (hci : s.ci = true) (htfes : s.tfes = false)
    (hlimit : timeout ≤ 1000000) :
    ∃ moves, Run (Step (some p) regs) s moves { s with pc := .check } := by
  obtain ⟨left, hleft⟩ := Nat.exists_eq_add_of_le hlimit
  induction left generalizing s timeout with
  | zero => exact ⟨_, Run.single (Step.pollLimit hpc (Nat.le_of_eq hleft))⟩
  | succ left ih =>
      have hbusy := @Step.pollBusy (some p) regs s timeout hpc (by omega) hci
      have hagain := @Step.pollAgain (some p) regs { s with pc := .pollIs timeout } timeout rfl
        htfes
      obtain ⟨moves, run⟩ := ih (s := { s with pc := .pollCi (timeout + 1) }) rfl hci htfes
        (by omega) (by omega)
      exact ⟨_, ((Run.single hbusy).trans (Run.single hagain)).trans run⟩

/-- A call that finds the slot busy times out if nothing happens. -/
theorem run_timesOut (regs : PortRegs) {c : ReadCall} {s : System} {rest : List ReadCall}
    (hpc : s.pc = .idle) (hci : s.ci = true) (htodo : s.todo = c :: rest) :
    ∃ moves s₀ s', Run (Step (some p) regs) s ((s₀, .ret (-2)) :: moves) s' := by
  obtain ⟨stores, hstores, _⟩ := run_to_issue p regs s hpc htodo
  let polling : System :=
    { s with
      mem := runStores s.mem (readStores p c), todo := rest, call := s.call + 1
      tfes := false, pc := .pollCi 0 }
  have hmove : Step (some p) regs { polling with pc := .issue } .issue polling := by
    have move := @Step.issue (some p) regs { polling with pc := .issue } rfl
    rw [System.issueCommand, if_pos hci] at move
    exact move
  obtain ⟨polls, hpolls⟩ := run_polls (p := p) (s := polling) regs rfl hci rfl
    (Nat.zero_le _)
  have hreturn : Step (some p) regs { polling with pc := .check } (.ret (-2))
      { polling with pc := .idle } := Step.checkBusy rfl hci
  exact ⟨_, _, _, Run.next ((Run.next hstores hmove).trans hpolls) hreturn⟩

end Failures

/-! ## Results -/

/-- The controller keeps to its contract as long as no call has failed. -/
def ServesUntilFault (disk : Bytes) (p : Fin 32) (moves : List (System × Event)) : Prop :=
  ∀ later s e earlier, moves = later ++ (s, e) :: earlier →
    (∀ r ∈ returns earlier, r.2 = 0) → Serves disk p s e

section Results

variable {disk mem : Bytes} {p : Fin 32} {port : Option (Fin 32)} {regs : PortRegs}
  {calls : List ReadCall} {moves later earlier : List (System × Event)} {s s₀ : System}

/-- **Runs are drives.**  In whatever order the driver and the controller move, each
`read_block` leaves in its buffer what the drive of the run says, and this drive delivers
the blocks of the disk up to the first call that fails. -/
theorem run_is_drive {blocks : List (UInt32 × UInt64)}
    (hbelow : ∀ block ∈ blocks, block.2.toNat < 2 ^ 32)
    (hapart : ∀ block ∈ blocks, ∀ i < 1024, ¬ Shared p (block.2.toNat + i))
    (run : Run (Step (some p) regs) (System.start mem (blocks.map blockCall)) moves s)
    (hserves : ServesUntilFault disk p moves) {n : Nat} {code : Int}
    (hret : (returns moves)[n]? = some (s₀, code)) :
    ∃ block, blocks[n]? = some block ∧
      ((driveOf disk blocks moves).fate n = true ↔ ∀ r ∈ (returns moves).take (n + 1), r.2 = 0) ∧
      ∀ buffer, ∀ i < 1024,
        s₀.mem (block.2.toNat + i) = readBlock (driveOf disk blocks moves) n block.1 buffer i := by
  obtain ⟨later, earlier, hsplit, htake, hlen⟩ := returns_split hret
  rw [hsplit] at run
  obtain ⟨before, s', move, _⟩ := run.split
  obtain ⟨hcall, htodo⟩ := run_counted before
  rw [busy_of_ret move, hlen] at hcall
  rw [List.length_map] at htodo
  have hn : n < blocks.length := by omega
  have hget : blocks[n]? = some blocks[n] := List.getElem?_eq_getElem hn
  have hfate : (driveOf disk blocks moves).fate n = true ↔
      ∀ r ∈ (returns moves).take (n + 1), r.2 = 0 := by
    simp only [driveOf, List.all_eq_true, beq_iff_eq]
  refine ⟨blocks[n], hget, hfate, fun buffer i hi => ?_⟩
  have hfirst : (returns moves).take (n + 1) = returns earlier ++ [(s₀, code)] := by
    rw [List.take_add_one, htake, hret]
    rfl
  cases hok : (driveOf disk blocks moves).fate n with
  | false =>
      rw [readBlock_of_failed _ _ hok hi]
      simp only [driveOf, hret, hget]
  | true =>
      have hgood := hfate.mp hok
      rw [hfirst] at hgood
      have hzero : ∀ r ∈ returns earlier, r.2 = 0 :=
        fun r hr => hgood r (List.mem_append_left _ hr)
      have hcode : code = 0 := hgood (s₀, code) (List.mem_append_right _ List.mem_cons_self)
      subst hcode
      have hkept : ∀ s e, (s, e) ∈ earlier → Serves disk p s e := by
        intro s e hmem
        obtain ⟨after, first, rfl⟩ := List.append_of_mem hmem
        refine hserves (later ++ (s₀, .ret 0) :: after) s e first ?_ fun r hr => ?_
        · rw [hsplit, List.append_assoc, List.cons_append]
        · refine hzero r ?_
          rw [returns_append, returns]
          exact List.mem_append_left _ (List.mem_append_left _ hr)
      obtain ⟨m, block, hcall', hblock, hbytes⟩ := block_of_zero hbelow hapart before hkept
        (fun s code hmem => hzero (s, code) (mem_returns.mpr hmem)) move
      have hm : m = n := by omega
      rw [hm, hget] at hblock
      cases hblock
      exact hbytes _ rfl n buffer hok i hi

/-- Two blocks, each with a buffer of its own. -/
def twoBlocks : List (UInt32 × UInt64) := [(3, 0x300000), (4, 0x300400)]

theorem twoBlocks_apart :
    ∀ block ∈ twoBlocks, ∀ i < 1024, ¬ Shared 0 (block.2.toNat + i) := by
  intro block hblock i hi hshared
  have hlist : (commandList 0).toNat = 0x100000 := rfl
  have htable : (commandTable 0).toNat = 0x110000 := rfl
  have hbuffer : 0x300000 ≤ block.2.toNat := by
    simp only [twoBlocks, List.mem_cons, List.not_mem_nil, or_false] at hblock
    rcases hblock with rfl | rfl
    · exact Nat.le_refl _
    · decide
  unfold Shared Command Notices at hshared
  omega

theorem twoBlocks_below : ∀ block ∈ twoBlocks, block.2.toNat < 2 ^ 32 := by
  intro block hblock
  simp only [twoBlocks, List.mem_cons, List.not_mem_nil, or_false] at hblock
  rcases hblock with rfl | rfl
  · decide
  · decide

/-- The first block arrives, and the device fails at the second. -/
theorem exists_faulty : ∃ moves s s₀ s₁, Run (Step (some 0) portZero)
    (System.start (fun _ => 0) (twoBlocks.map blockCall)) moves s ∧
      returns moves = [(s₀, 0), (s₁, -1)] ∧ ∀ s e, (s, e) ∈ moves → Serves ramp 0 s e := by
  have hproper : Proper 0 (blockCall (3, 0x300000)) := by
    refine ⟨⟨by decide, by decide, by decide⟩, fun x hx => ?_⟩
    obtain ⟨i, hi, rfl⟩ := buffer_blockCall hx
    exact twoBlocks_apart _ List.mem_cons_self i hi
  obtain ⟨first, s, hfirst, hpc, hci, htodo, _, ⟨s₀, hret⟩, hserved⟩ :=
    run_served (s := System.start (fun _ => 0) (twoBlocks.map blockCall)) ramp lists_portZero
      hproper rfl rfl rfl
  obtain ⟨before, after, _, s', hsecond, _, _, _, ⟨s₁, hret'⟩, hserved'⟩ :=
    run_failed ramp portZero hpc hci htodo
  refine ⟨_, s', s₀, s₁, hfirst.trans hsecond, ?_, fun s e hmem => ?_⟩
  · rw [returns_append, hret, hret']
    rfl
  · rcases List.mem_append.mp hmem with hmem | hmem
    · exact hserved' s e hmem
    · exact hserved s e hmem

theorem run_is_drive_fault : ∃ moves s s₀ s₁, Run (Step (some 0) portZero)
    (System.start (fun _ => 0) (twoBlocks.map blockCall)) moves s ∧
      returns moves = [(s₀, 0), (s₁, -1)] ∧ s₀.mem 0x300007 = 7 ∧
      ∀ buffer, ∀ i < 1024, s₁.mem (0x300400 + i) =
        readBlock (driveOf ramp twoBlocks moves) 1 4 buffer i := by
  obtain ⟨moves, s, s₀, s₁, run, hrets, hserves⟩ := exists_faulty
  have huntil : ServesUntilFault ramp 0 moves := by
    intro later s e earlier hsplit _
    refine hserves s e ?_
    rw [hsplit]
    exact List.mem_append_right _ List.mem_cons_self
  have hfirst : (returns moves)[0]? = some (s₀, 0) := by rw [hrets]; rfl
  have hsecond : (returns moves)[1]? = some (s₁, -1) := by rw [hrets]; rfl
  obtain ⟨block, hblock, hfate, hbytes⟩ :=
    run_is_drive twoBlocks_below twoBlocks_apart run huntil hfirst
  obtain ⟨block', hblock', _, hbytes'⟩ :=
    run_is_drive twoBlocks_below twoBlocks_apart run huntil hsecond
  cases hblock
  cases hblock'
  refine ⟨moves, s, s₀, s₁, run, hrets, ?_, hbytes'⟩
  have hgood : (driveOf ramp twoBlocks moves).fate 0 = true := by
    rw [hfate, hrets]
    simp
  have hseven := hbytes (fun _ => 0) 7 (by decide)
  have haddr : (3145728 : UInt64).toNat + 7 = 0x300007 := by decide
  rw [readBlock_of_ok _ _ hgood (by decide), haddr] at hseven
  rw [hseven]
  change ramp (1024 * 3 + 7) = 7
  decide

/-- **An error of the device is final.**  Once a command has failed, every later store of
the driver goes into structures that the controller owns, no later command is accepted
or completed, and no later call returns 0. -/
theorem error_is_final
    (run : Run (Step port regs) (System.start mem calls) (later ++ (s₀, .fail) :: earlier) s) :
    s.accepted = s₀.accepted ∧
      ∀ s' e, (s', e) ∈ later → s'.ci = true ∧ e ≠ .complete ∧ e ≠ .ret 0 := by
  obtain ⟨_, s₁, move, after⟩ := run.split
  obtain ⟨hlast, hall⟩ := Run.always (Stuck.of_fail move) (fun _ _ _ h move => h.step move) after
  refine ⟨hlast.same, fun s' e hmem => ?_⟩
  obtain ⟨hstuck, s'', move'⟩ := hall s' e hmem
  refine ⟨hstuck.busy, fun he => ?_, fun he => ?_⟩
  · subst he
    cases move' with
    | complete hci hlive =>
        rw [hstuck.failed] at hlive
        cases hlive
  · subst he
    cases move' with
    | checkClear hpc hci =>
        rw [hstuck.busy] at hci
        cases hci

/-- After an error the next call times out, with the failed command in the slot. -/
theorem error_is_final_timeout : ∃ later earlier s₀ s, Run (Step (some 0) portZero)
    (System.start (fun _ => 0) [readZero, readZero]) (later ++ (s₀, .fail) :: earlier) s ∧
      (∃ s', (s', Event.ret (-2)) ∈ later) ∧ s.accepted = s₀.accepted := by
  obtain ⟨before, after, s₀, s, hfirst, hpc, hci, htodo, _, _⟩ :=
    run_failed (p := 0) (s := System.start (fun _ => 0) [readZero, readZero]) ramp portZero rfl
      rfl rfl
  obtain ⟨moves, s₁, s', hsecond⟩ := run_timesOut (p := 0) portZero hpc hci htodo
  have run := hfirst.trans hsecond
  rw [← List.append_assoc] at run
  exact ⟨_, before, s₀, s', run, ⟨s₁, List.mem_append_left _ List.mem_cons_self⟩,
    (error_is_final run).1⟩

end Results

end Ahci
