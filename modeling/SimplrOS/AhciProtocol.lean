import SimplrOS.Ahci
import SimplrOS.History

/-!
# The driver and the controller on command slot 0

The driver runs one `ahci_read` after the other, a store or register access at a
time; the controller moves in between.  While `PxCI` bit 0 is set the controller
owns the slot: it may complete the command and clear the bit, or fail it, which
sets the task-file-error bit and leaves `PxCI` set, or let any number of polls
pass.  Writing `PxCI` while the bit is set issues nothing.

`ahci_read` never looks at `PxCI` before it stores, and it leaves the slot as it
is when it gives up.  Whether a run is safe is therefore decided by the state the
slot is in when each call makes its first store.
-/

namespace Ahci

open ByteStore History

/-- Where the driver is inside `ahci_read`. -/
inductive Pc
  | idle
  | storing (i : Nat) (rest : List Store)
  | issue
  | pollCi (timeout : Nat)
  | pollIs (timeout : Nat)
  | check

/-- The driver, the slot and the memory. -/
structure System where
  mem : Bytes
  /-- the calls still to be made -/
  todo : List ReadCall
  /-- the number of calls begun; the last of them has this number -/
  call : Nat
  pc : Pc
  /-- `PxCI` bit 0 and `PxIS` bit 30 -/
  ci : Bool
  tfes : Bool
  /-- the controller has given up on the command in the slot -/
  failed : Bool
  /-- the call whose command is or was last in the slot -/
  slot : Nat
  accepted : List Nat
  completed : List Nat

/-- The system after `ahci_init`, with the slot free. -/
def System.start (mem : Bytes) (calls : List ReadCall) : System where
  mem := mem
  todo := calls
  call := 0
  pc := .idle
  ci := false
  tfes := false
  failed := false
  slot := 0
  accepted := []
  completed := []

/-- `PORT_CI := 1`: accepted if the slot is free, without effect otherwise. -/
def System.issueCommand (s : System) : System :=
  if s.ci then { s with pc := .pollCi 0 }
  else { s with
    pc := .pollCi 0, ci := true, failed := false, slot := s.call
    accepted := s.call :: s.accepted }

/-- What happens in a move. -/
inductive Event
  | begin
  | store (i : Nat) (st : Store)
  | clearIs
  | issue
  | poll
  | ret (code : Int)
  | complete
  | fail
  | dma (addr : Nat) (value : UInt8)

/-- The bytes the controller writes on its own account: the command list and the
received-FIS area the port registers name. -/
def ControllerArea (regs : PortRegs) (x : Nat) : Prop :=
  (regs.clb.toNat + 2 ^ 32 * regs.clbu.toNat ≤ x ∧
    x < regs.clb.toNat + 2 ^ 32 * regs.clbu.toNat + 1024) ∨
  (regs.fb.toNat + 2 ^ 32 * regs.fbu.toNat ≤ x ∧
    x < regs.fb.toNat + 2 ^ 32 * regs.fbu.toNat + 256)

/-- The bytes of the data buffer: what the table that the header in memory names
describes. -/
def DataArea (regs : PortRegs) (mem : Bytes) (x : Nat) : Prop :=
  let header := regs.clb.toNat + 2 ^ 32 * regs.clbu.toNat
  let table := (word32 mem (header + 8)).toNat + 2 ^ 32 * (word32 mem (header + 12)).toNat
  let dba := (word32 mem (table + 128)).toNat + 2 ^ 32 * (word32 mem (table + 132)).toNat
  let dbc := (word32 mem (table + 140)).toNat % 2 ^ 22
  dba ≤ x ∧ x < dba + dbc + 1

/-- One move of the driver or the controller. -/
inductive Step (port : Option (Fin 32)) (regs : PortRegs) : System → Event → System → Prop
  | noPort {s : System} {c : ReadCall} {rest : List ReadCall} (hport : port = none)
      (hpc : s.pc = .idle) (htodo : s.todo = c :: rest) :
      Step port regs s (.ret (-1)) { s with todo := rest, call := s.call + 1 }
  | begin {s : System} {p : Fin 32} {c : ReadCall} {rest : List ReadCall} (hport : port = some p)
      (hpc : s.pc = .idle) (htodo : s.todo = c :: rest) :
      Step port regs s .begin
        { s with todo := rest, call := s.call + 1, pc := .storing 0 (readStores p c) }
  | store {s : System} {i : Nat} {st : Store} {rest : List Store}
      (hpc : s.pc = .storing i (st :: rest)) :
      Step port regs s (.store i st) { s with mem := st.run s.mem, pc := .storing (i + 1) rest }
  | clearIs {s : System} {i : Nat} (hpc : s.pc = .storing i []) :
      Step port regs s .clearIs { s with tfes := false, pc := .issue }
  | issue {s : System} (hpc : s.pc = .issue) : Step port regs s .issue s.issueCommand
  | pollBusy {s : System} {timeout : Nat} (hpc : s.pc = .pollCi timeout)
      (hlimit : timeout < 1000000) (hci : s.ci = true) :
      Step port regs s .poll { s with pc := .pollIs timeout }
  | pollClear {s : System} {timeout : Nat} (hpc : s.pc = .pollCi timeout)
      (hlimit : timeout < 1000000) (hci : s.ci = false) :
      Step port regs s .poll { s with pc := .check }
  | pollLimit {s : System} {timeout : Nat} (hpc : s.pc = .pollCi timeout)
      (hlimit : 1000000 ≤ timeout) : Step port regs s .poll { s with pc := .check }
  | pollError {s : System} {timeout : Nat} (hpc : s.pc = .pollIs timeout) (htfes : s.tfes = true) :
      Step port regs s (.ret (-1)) { s with pc := .idle }
  | pollAgain {s : System} {timeout : Nat} (hpc : s.pc = .pollIs timeout)
      (htfes : s.tfes = false) : Step port regs s .poll { s with pc := .pollCi (timeout + 1) }
  | checkBusy {s : System} (hpc : s.pc = .check) (hci : s.ci = true) :
      Step port regs s (.ret (-2)) { s with pc := .idle }
  | checkClear {s : System} (hpc : s.pc = .check) (hci : s.ci = false) :
      Step port regs s (.ret 0) { s with pc := .idle }
  | complete {s : System} (hci : s.ci = true) (hlive : s.failed = false) :
      Step port regs s .complete { s with ci := false, completed := s.slot :: s.completed }
  | fail {s : System} (hci : s.ci = true) (hlive : s.failed = false) :
      Step port regs s .fail { s with failed := true, tfes := true }
  | dma {s : System} {x : Nat} {v : UInt8}
      (harea : ControllerArea regs x ∨ (s.ci = true ∧ DataArea regs s.mem x)) :
      Step port regs s (.dma x v) { s with mem := put s.mem x v }

/-! ## Safety -/

/-- No call stores while the slot is busy, and a call returns 0 only if its own
command was accepted and completed. -/
structure Safe (moves : List (System × Event)) : Prop where
  stores : ∀ s i st, (s, Event.store i st) ∈ moves → s.ci = false
  returns : ∀ s, (s, Event.ret 0) ∈ moves → s.call ∈ s.accepted ∧ s.call ∈ s.completed

/-- The slot is free at the first store of every call. -/
def StartsFree (moves : List (System × Event)) : Prop :=
  ∀ s st, (s, Event.store 0 st) ∈ moves → s.ci = false

/-- The command in flight is the current call's, or that has been completed. -/
structure Waiting (s : System) : Prop where
  accepted : s.call ∈ s.accepted
  busy : s.ci = true → s.slot = s.call
  done : s.ci = false → s.call ∈ s.completed

/-- What holds in between if every call starts with a free slot. -/
def SlotInv (s : System) : Prop :=
  match s.pc with
  | .idle => True
  | .storing 0 rest => rest ≠ []
  | .storing _ _ => s.ci = false
  | .issue => s.ci = false
  | .pollCi _ => Waiting s
  | .pollIs _ => Waiting s
  | .check => Waiting s

/-- The first store of a call finds the slot free. -/
def FreeStart (s : System) : Event → Prop
  | .store 0 _ => s.ci = false
  | _ => True

section Slot

variable {port : Option (Fin 32)} {regs : PortRegs} {s s' : System} {e : Event}

/-- Before the command is issued, every later store finds the slot free as well. -/
theorem SlotInv.storing (h : SlotInv s) {i : Nat} {st : Store} {rest : List Store}
    (hpc : s.pc = .storing i (st :: rest)) (hfree : FreeStart s (.store i st)) :
    s.ci = false := by
  cases i with
  | zero => exact hfree
  | succ i => simpa only [SlotInv, hpc] using h

/-- The slot is free when the stores are done. -/
theorem SlotInv.stored (h : SlotInv s) {i : Nat} (hpc : s.pc = .storing i []) :
    s.ci = false := by
  cases i with
  | zero =>
      simp only [SlotInv, hpc] at h
      exact absurd rfl h
  | succ i => simpa only [SlotInv, hpc] using h

/-- A free slot accepts the command of the call that issues it. -/
theorem Waiting.of_issue (hci : s.ci = false) : Waiting s.issueCommand := by
  unfold System.issueCommand
  rw [if_neg (by rw [hci]; exact Bool.false_ne_true)]
  exact ⟨List.mem_cons_self, fun _ => rfl, fun hbad => by cases hbad⟩

theorem Waiting.complete (h : Waiting s) (hci : s.ci = true) :
    Waiting { s with ci := false, completed := s.slot :: s.completed } where
  accepted := h.accepted
  busy := fun hbad => by cases hbad
  done := by
    intro _
    rw [h.busy hci]
    exact List.mem_cons_self

/-- Completing a command keeps the invariant: it is the current call's. -/
theorem SlotInv.complete (h : SlotInv s) (hci : s.ci = true) :
    SlotInv { s with ci := false, completed := s.slot :: s.completed } := by
  unfold SlotInv at h ⊢
  dsimp only
  split at h
  · trivial
  · exact h
  · rfl
  · rfl
  · exact Waiting.complete h hci
  · exact Waiting.complete h hci
  · exact Waiting.complete h hci

/-- What the controller does besides completing leaves the invariant's fields
alone. -/
theorem SlotInv.congr (h : SlotInv s) (hpc : s'.pc = s.pc) (hci : s'.ci = s.ci)
    (hcall : s'.call = s.call) (hslot : s'.slot = s.slot) (haccepted : s'.accepted = s.accepted)
    (hcompleted : s'.completed = s.completed) : SlotInv s' := by
  have hwait : Waiting s → Waiting s' := by
    intro hw
    refine ⟨?_, ?_, ?_⟩
    · rw [hcall, haccepted]
      exact hw.accepted
    · rw [hci, hslot, hcall]
      exact hw.busy
    · rw [hci, hcall, hcompleted]
      exact hw.done
  unfold SlotInv at h ⊢
  rw [hpc, hci]
  split at h
  · trivial
  · exact h
  · exact h
  · exact h
  · exact hwait h
  · exact hwait h
  · exact hwait h

/-- **Step lemma.** -/
theorem SlotInv.step (h : SlotInv s) (hfree : FreeStart s e) (move : Step port regs s e s') :
    SlotInv s' := by
  cases move with
  | noPort hport hpc htodo =>
      unfold SlotInv
      rw [hpc]
      trivial
  | begin hport hpc htodo => exact readStores_ne_nil _ _
  | store hpc => exact h.storing hpc hfree
  | clearIs hpc => exact h.stored hpc
  | issue hpc =>
      have hci : s.ci = false := by simpa only [SlotInv, hpc] using h
      have hwait := Waiting.of_issue hci
      unfold System.issueCommand at hwait ⊢
      rw [hci] at hwait ⊢
      exact hwait
  | pollBusy hpc hlimit hci =>
      have hw : Waiting s := by simpa only [SlotInv, hpc] using h
      exact ⟨hw.accepted, hw.busy, hw.done⟩
  | pollClear hpc hlimit hci =>
      have hw : Waiting s := by simpa only [SlotInv, hpc] using h
      exact ⟨hw.accepted, hw.busy, hw.done⟩
  | pollLimit hpc hlimit =>
      have hw : Waiting s := by simpa only [SlotInv, hpc] using h
      exact ⟨hw.accepted, hw.busy, hw.done⟩
  | pollError hpc htfes => trivial
  | pollAgain hpc htfes =>
      have hw : Waiting s := by simpa only [SlotInv, hpc] using h
      exact ⟨hw.accepted, hw.busy, hw.done⟩
  | checkBusy hpc hci => trivial
  | checkClear hpc hci => trivial
  | complete hci hlive => exact h.complete hci
  | fail hci hlive => exact h.congr rfl rfl rfl rfl rfl rfl
  | dma harea => exact h.congr rfl rfl rfl rfl rfl rfl

end Slot

/-! ## Runs of whole calls -/

section Calls

variable {port : Option (Fin 32)} {regs : PortRegs}

/-- The moves of the driver before it issues a command. -/
def Event.Prepares : Event → Prop
  | .begin => True
  | .store _ _ => True
  | .clearIs => True
  | _ => False

/-- The stores of a call can be made one after the other, and the slot is all the
time what it was. -/
theorem run_stores {s : System} {i : Nat} {rest : List Store} (hpc : s.pc = .storing i rest) :
    ∃ moves, Run (Step port regs) s moves
        { s with mem := runStores s.mem rest, tfes := false, pc := .issue } ∧
      ∀ s' e, (s', e) ∈ moves → s'.ci = s.ci ∧ e.Prepares := by
  induction rest generalizing s i with
  | nil =>
      refine ⟨_, Run.single (Step.clearIs hpc), fun s' e hmem => ?_⟩
      cases List.mem_singleton.mp hmem
      exact ⟨rfl, trivial⟩
  | cons st rest ih =>
      obtain ⟨moves, run, hmoves⟩ :=
        ih (s := { s with mem := st.run s.mem, pc := .storing (i + 1) rest }) rfl
      refine ⟨moves ++ [(s, .store i st)], (Run.single (Step.store hpc)).trans run,
        fun s' e hmem => ?_⟩
      rcases List.mem_append.mp hmem with hlater | hhere
      · exact hmoves s' e hlater
      · cases List.mem_singleton.mp hhere
        exact ⟨rfl, trivial⟩

/-- A call gets as far as issuing its command, whatever the slot is in. -/
theorem run_to_issue (p : Fin 32) (regs : PortRegs) (s : System) {c : ReadCall}
    {rest : List ReadCall} (hpc : s.pc = .idle) (htodo : s.todo = c :: rest) :
    ∃ moves, Run (Step (some p) regs) s moves
        { s with
          mem := runStores s.mem (readStores p c), todo := rest, call := s.call + 1
          tfes := false, pc := .issue } ∧
      ∀ s' e, (s', e) ∈ moves → s'.ci = s.ci ∧ e.Prepares := by
  let begun : System :=
    { s with todo := rest, call := s.call + 1, pc := .storing 0 (readStores p c) }
  have hbegin : Run (Step (some p) regs) s _ begun := Run.single (Step.begin rfl hpc htodo)
  obtain ⟨moves, run, hmoves⟩ := @run_stores (some p) regs begun 0 (readStores p c) rfl
  refine ⟨_, hbegin.trans run, fun s' e hmem => ?_⟩
  rcases List.mem_append.mp hmem with hlater | hfirst
  · exact hmoves s' e hlater
  · cases List.mem_singleton.mp hfirst
    exact ⟨rfl, trivial⟩

end Calls

/-- Reading two blocks from the start of the disk. -/
def readZero : ReadCall := ⟨0, 2, 0x300000⟩

/-- The registers of port 0 after `port_rebase`. -/
def portZero : PortRegs := portRebase 0 0 ⟨0, 0, 0, 0, 0, 0, 0, 0⟩

/-- A call whose command the controller completes at once returns 0. -/
theorem exists_goodRun : ∃ moves s, Run (Step (some 0) portZero)
    (System.start (fun _ => 0) [readZero]) moves s ∧ StartsFree moves ∧
      ∃ s', (s', Event.ret 0) ∈ moves := by
  obtain ⟨moves, run, hci⟩ :=
    run_to_issue 0 portZero (System.start (fun _ => 0) [readZero]) rfl rfl
  generalize runStores (System.start (fun _ => 0) [readZero]).mem (readStores 0 readZero) = mem
    at run
  let waiting : System := ⟨mem, [], 1, .pollCi 0, true, false, false, 1, [1], []⟩
  let done : System := ⟨mem, [], 1, .pollCi 0, false, false, false, 1, [1], [1]⟩
  have hissue : Run (Step (some 0) portZero) _ _ waiting :=
    Run.next run (Step.issue rfl)
  have hdone : Run (Step (some 0) portZero) _ _ done :=
    Run.next hissue (Step.complete rfl rfl)
  have hpoll : Run (Step (some 0) portZero) _ _ { done with pc := .check } :=
    Run.next hdone (Step.pollClear rfl (by decide : 0 < 1000000) rfl)
  refine ⟨_, _, Run.next hpoll (Step.checkClear rfl rfl), fun s st hmem => ?_,
    _, List.mem_cons_self⟩
  rcases List.mem_cons.mp hmem with hret | hmem
  · cases hret
  rcases List.mem_cons.mp hmem with hpolled | hmem
  · cases hpolled
  rcases List.mem_cons.mp hmem with hcomplete | hmem
  · cases hcomplete
  rcases List.mem_cons.mp hmem with hissued | hmem
  · cases hissued
  exact (hci s _ hmem).1

/-- **The slot protocol.**  In every run of any calls against any controller, the
driver keeps off a busy slot and reports success only for its own completed
commands, exactly when the slot is free at the first store of every call. -/
theorem safe_iff {port : Option (Fin 32)} {regs : PortRegs} {mem : Bytes}
    {calls : List ReadCall} {moves : List (System × Event)} {s : System}
    (run : Run (Step port regs) (System.start mem calls) moves s) :
    Safe moves ↔ StartsFree moves := by
  constructor
  · intro hsafe s st hmem
    exact hsafe.stores s 0 st hmem
  · intro hfree
    have hallowed : ∀ s e, (s, e) ∈ moves → FreeStart s e := by
      intro s e hmem
      unfold FreeStart
      split
      · exact hfree s _ hmem
      · trivial
    have hstart : SlotInv (System.start mem calls) := trivial
    obtain ⟨_, hall⟩ := run.invariant hstart
      (fun _ _ _ hinv hallow move => hinv.step hallow move) hallowed
    constructor
    · intro s i st hmem
      obtain ⟨hinv, s', move⟩ := hall s _ hmem
      cases move with
      | store hpc => exact hinv.storing hpc (hallowed s _ hmem)
    · intro s hmem
      obtain ⟨hinv, s', move⟩ := hall s _ hmem
      cases move with
      | checkClear hpc hci =>
          have hw : Waiting s := by simpa only [SlotInv, hpc] using hinv
          exact ⟨hw.accepted, hw.done hci⟩

theorem safe_iff_goodRun : ∃ moves s, Run (Step (some 0) portZero)
    (System.start (fun _ => 0) [readZero]) moves s ∧ (∃ s', (s', Event.ret 0) ∈ moves) ∧
      Safe moves := by
  obtain ⟨moves, s, run, hfree, hret⟩ := exists_goodRun
  exact ⟨moves, s, run, hret, (safe_iff run).mpr hfree⟩

/-- The first call's command fails and the call returns -1; the second call then
stores into the header the controller still owns. -/
theorem failedCall_unsafe : ∃ moves s, Run (Step (some 0) portZero)
    (System.start (fun _ => 0) [readZero, readZero]) moves s ∧
      (∃ s', (s', Event.ret (-1)) ∈ moves) ∧ ¬ Safe moves := by
  obtain ⟨moves, run, _⟩ :=
    run_to_issue 0 portZero (System.start (fun _ => 0) [readZero, readZero]) rfl rfl
  generalize runStores (System.start (fun _ => 0) [readZero, readZero]).mem
    (readStores 0 readZero) = mem at run
  let waiting : System := ⟨mem, [readZero], 1, .pollCi 0, true, false, false, 1, [1], []⟩
  let broken : System := ⟨mem, [readZero], 1, .pollCi 0, true, true, true, 1, [1], []⟩
  have hissue : Run (Step (some 0) portZero) _ _ waiting := Run.next run (Step.issue rfl)
  have hfail : Run (Step (some 0) portZero) _ _ broken := Run.next hissue (Step.fail rfl rfl)
  have hpoll : Run (Step (some 0) portZero) _ _ { broken with pc := .pollIs 0 } :=
    Run.next hfail (Step.pollBusy rfl (by decide) rfl)
  have hret : Run (Step (some 0) portZero) _ _ { broken with pc := .idle } :=
    Run.next hpoll (Step.pollError rfl rfl)
  have hbegin : Run (Step (some 0) portZero) _ _
      { broken with todo := [], call := 2, pc := .storing 0 (readStores 0 readZero) } :=
    Run.next hret (Step.begin rfl rfl rfl)
  obtain ⟨st, rest, hstores⟩ := List.exists_cons_of_ne_nil (readStores_ne_nil 0 readZero)
  rw [hstores] at hbegin
  refine ⟨_, _, Run.next hbegin (Step.store rfl), ⟨{ broken with pc := .pollIs 0 }, ?_⟩,
    fun hsafe => ?_⟩
  · exact List.mem_cons_of_mem _ (List.mem_cons_of_mem _ List.mem_cons_self)
  · cases hsafe.stores _ 0 st List.mem_cons_self

end Ahci
