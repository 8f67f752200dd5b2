import SimplrOS.KernelOverlap
import SimplrOS.Interaction

/-!
# Rebasing a port

`port_rebase` against the hardware.  The controller runs the two engines of a port on
its own account: it sets and clears `CR` and `FR`, the bits that say whether an engine
runs, and what else it likes to show in `PORT_CMD`, but it starts an engine only while the
driver's bit for it, `ST` or `FRE`, is set, and it leaves these two alone.

The addresses of the command list and of the area of received FISes must change
only while both engines stand still.  The proof outline carries one assertion through
the stores: since the driver has cleared its bits and has seen both engines stopped, the
controller has no way to start one again.
-/

namespace Ahci

open History Interaction

/-! ## The port and its hardware -/

/-- The port registers in use. -/
inductive PortReg
  | clb
  | clbu
  | fb
  | fbu
  | is
  | cmd
  | serr
deriving DecidableEq

/-- `port_read` and `port_write`. -/
inductive Access
  | read (reg : PortReg)
  | write (reg : PortReg) (value : UInt32)

/-- What the processor gets back from an access. -/
abbrev Access.Reply : Access → Type
  | .read _ => UInt32
  | .write _ _ => Unit

/-- The register that a read of `reg` returns. -/
def PortRegs.get (regs : PortRegs) : PortReg → UInt32
  | .clb => regs.clb
  | .clbu => regs.clbu
  | .fb => regs.fb
  | .fbu => regs.fbu
  | .is => regs.is
  | .cmd => regs.cmd
  | .serr => regs.serr

/-- `CR` and `FR`, which a write does not change. -/
abbrev runningBits : UInt32 := 0xC000

/-- `ST` and `FRE`. -/
abbrev startBits : UInt32 := 0x11

/-- The registers after a write. -/
def PortRegs.set (regs : PortRegs) (value : UInt32) : PortReg → PortRegs
  | .clb => { regs with clb := value }
  | .clbu => { regs with clbu := value }
  | .fb => { regs with fb := value }
  | .fbu => { regs with fbu := value }
  | .is => { regs with is := value }
  | .cmd => { regs with cmd := value &&& ~~~runningBits ||| regs.cmd &&& runningBits }
  | .serr => { regs with serr := value }

/-- The hardware shows `cmd` next: an engine starts only while its bit is set. -/
structure Shows (regs : PortRegs) (cmd : UInt32) : Prop where
  start : cmd &&& startBits = regs.cmd &&& startBits
  command : cmd &&& 0x8000 ≠ 0 → regs.cmd &&& 0x8001 ≠ 0
  receive : cmd &&& 0x4000 ≠ 0 → regs.cmd &&& 0x4010 ≠ 0

/-- The port as the driver meets it. -/
def portWorld : World Access Access.Reply PortRegs where
  answer regs
    | .read reg, value, regs' => value = regs.get reg ∧ regs' = regs
    | .write reg value, _, regs' => regs' = regs.set value reg
  moves regs regs' := ∃ cmd, Shows regs cmd ∧ regs' = { regs with cmd := cmd }

/-! ## The source -/

/-- `port_rebase`. -/
def portRebaseProg (port : Fin 32) : Prog Access Access.Reply Unit :=
  .call (.read .cmd) fun cmd =>
    let cmd := cmd &&& ~~~0x01
    let cmd := cmd &&& ~~~0x10
    .call (.write .cmd cmd) fun _ =>
    .poll (.read .cmd) (fun value => value &&& 0xC000 == 0) <|
    let clb : UInt32 := 0x100000 + UInt32.ofNat port * 0x400
    .call (.write .clb clb) fun _ =>
    .call (.write .clbu 0) fun _ =>
    let fb : UInt32 := 0x108000 + UInt32.ofNat port * 0x100
    .call (.write .fb fb) fun _ =>
    .call (.write .fbu 0) fun _ =>
    .call (.write .serr 0xFFFFFFFF) fun _ =>
    .call (.write .is 0xFFFFFFFF) fun _ =>
    .poll (.read .cmd) (fun value => value &&& 0x8000 == 0) <|
    .call (.read .cmd) fun cmd =>
    let cmd := cmd ||| 0x10
    let cmd := cmd ||| 0x01
    .call (.write .cmd cmd) fun _ =>
    .ret ()

/-! ## Bits of `PORT_CMD` -/

/-- Both engines stand still and may not start. -/
def Stopped (regs : PortRegs) : Prop := regs.cmd &&& 0xC011 = 0

theorem or_and (a b c : UInt32) : (a ||| b) &&& c = a &&& c ||| b &&& c := by
  apply UInt32.toNat_inj.mp
  simp only [UInt32.toNat_and, UInt32.toNat_or]
  exact Nat.and_or_distrib_right _ _ _

theorem and_eq_zero_of_le {a b c : UInt32} (h : a &&& b = 0) (hc : b &&& c = c) : a &&& c = 0 := by
  rw [← hc, ← UInt32.and_assoc, h, UInt32.zero_and]

/-- A write sets the driver's bits. -/
theorem set_cmd_start (regs : PortRegs) (value : UInt32) :
    (regs.set value .cmd).cmd &&& startBits = value &&& startBits := by
  have hkeep : ~~~runningBits &&& startBits = startBits := by decide
  have hdrop : runningBits &&& startBits = 0 := by decide
  rw [PortRegs.set, or_and, UInt32.and_assoc, UInt32.and_assoc, hkeep, hdrop, UInt32.and_zero,
    UInt32.or_zero]

/-- What the hardware may show in `cmd` keeps a stopped engine stopped. -/
theorem Stopped.shows (regs : PortRegs) {cmd : UInt32} (h : Stopped regs)
    (hshows : Shows regs cmd) : Stopped { regs with cmd := cmd } := by
  have hstart : cmd &&& startBits = 0 := by
    rw [hshows.start]
    exact and_eq_zero_of_le h (by decide)
  have hcommand : cmd &&& 0x8000 = 0 := by
    by_contra hne
    exact hshows.command hne (and_eq_zero_of_le h (by decide))
  have hreceive : cmd &&& 0x4000 = 0 := by
    by_contra hne
    exact hshows.receive hne (and_eq_zero_of_le h (by decide))
  have hall : (0xC011 : UInt32) = startBits ||| 0x8000 ||| 0x4000 := by decide
  unfold Stopped
  dsimp only
  rw [hall, UInt32.and_comm, or_and, or_and, UInt32.and_comm _ cmd, UInt32.and_comm _ cmd,
    UInt32.and_comm _ cmd, hstart, hcommand, hreceive]
  rfl

/-- Without its bit no engine starts: it is seen stopped at last. -/
theorem stopped_of_read {regs : PortRegs} (hstart : regs.cmd &&& startBits = 0)
    (hread : regs.cmd &&& 0xC000 = 0) : Stopped regs := by
  have hall : (0xC011 : UInt32) = startBits ||| 0xC000 := by decide
  rw [Stopped, hall, UInt32.and_comm, or_and, UInt32.and_comm _ regs.cmd,
    UInt32.and_comm _ regs.cmd, hstart, hread]
  rfl

/-- The hardware may stop both engines. -/
theorem shows_stopped (regs : PortRegs) : Shows regs (regs.cmd &&& ~~~runningBits) := by
  have hstart : ~~~runningBits &&& startBits = startBits := by decide
  have hcommand : ~~~runningBits &&& 0x8000 = 0 := by decide
  have hreceive : ~~~runningBits &&& 0x4000 = 0 := by decide
  refine ⟨?_, fun hne => absurd ?_ hne, fun hne => absurd ?_ hne⟩
  · rw [UInt32.and_assoc, hstart]
  · rw [UInt32.and_assoc, hcommand, UInt32.and_zero]
  · rw [UInt32.and_assoc, hreceive, UInt32.and_zero]

/-- Both bits of the driver are set, over whatever was read. -/
theorem or_start {value : UInt32} (h : value &&& startBits = 0) :
    (value ||| 0x10 ||| 0x01) &&& startBits = startBits := by
  have hfirst : (0x10 : UInt32) &&& startBits = 0x10 := by decide
  have hsecond : (0x01 : UInt32) &&& startBits = 0x01 := by decide
  rw [or_and, or_and, h, hfirst, hsecond]
  rfl

/-! ## The outline -/

/-- The registers are those of `target` but for what the hardware shows in `PORT_CMD`. -/
def Shown (target : PortRegs) (P : UInt32 → Prop) (regs : PortRegs) : Prop :=
  P regs.cmd ∧ ∃ cmd, regs = { target with cmd := cmd }

/-- What the driver may do: give addresses to engines that stand still, and start them
when the addresses are in place. -/
def Allowed (port : Fin 32) (regs : PortRegs) : Access → Prop
  | .read _ => True
  | .write .cmd value => value &&& startBits ≠ 0 →
      Stopped regs ∧ regs.clb = commandList port ∧ regs.clbu = 0 ∧
        regs.fb.toNat = 0x108000 + 0x100 * port ∧ regs.fbu = 0
  | .write _ _ => Stopped regs

/-- The port has been rebased: the registers are those that `portRebase` gives, with the
engines stopped before and their bits set now. -/
def Rebased (port : Fin 32) (regs₀ regs : PortRegs) : Prop :=
  ∃ cmd, cmd &&& 0xC011 = 0 ∧
    Shown (portRebase port cmd regs₀) (fun shown => shown &&& startBits = startBits) regs

section Outline

variable {target regs regs₀ : PortRegs} {P : UInt32 → Prop} {port : Fin 32}

/-- A condition on `cmd` that the hardware keeps is stable. -/
theorem Shown.stable (hP : ∀ regs cmd, P regs.cmd → Shows regs cmd → P cmd) :
    Stable portWorld (Shown target P) := by
  intro regs regs' h hmove
  obtain ⟨hcmd, cmd₀, rfl⟩ := h
  obtain ⟨cmd, hshows, rfl⟩ := hmove
  exact ⟨hP _ cmd hcmd hshows, cmd, rfl⟩

/-- The assertion that goes through the stores. -/
abbrev Held (target : PortRegs) : PortRegs → Prop := Shown target fun cmd => cmd &&& 0xC011 = 0

theorem held_stable : Stable portWorld (Held target) :=
  Shown.stable fun regs _ h hshows => Stopped.shows regs h hshows

/-- A driver's store to another register than `cmd` keeps the agreement. -/
theorem Held.set (h : Held target regs) {reg : PortReg} (hreg : reg ≠ .cmd) (value : UInt32) :
    Held (target.set value reg) (regs.set value reg) := by
  obtain ⟨hcmd, cmd, rfl⟩ := h
  cases reg with
  | cmd => exact absurd rfl hreg
  | clb => exact ⟨hcmd, cmd, rfl⟩
  | clbu => exact ⟨hcmd, cmd, rfl⟩
  | fb => exact ⟨hcmd, cmd, rfl⟩
  | fbu => exact ⟨hcmd, cmd, rfl⟩
  | is => exact ⟨hcmd, cmd, rfl⟩
  | serr => exact ⟨hcmd, cmd, rfl⟩

/-- A store to another register than `PORT_CMD`. -/
theorem proves_store {reg : PortReg} (hreg : reg ≠ .cmd) (value : UInt32)
    {next : Unit → Prog Access Access.Reply Unit} {Q : Unit → PortRegs → Prop}
    (hnext : Proves portWorld (Allowed port) (Held (target.set value reg)) (next ()) Q) :
    Proves portWorld (Allowed port) (Held target) (.call (.write reg value) next) Q := by
  refine .call (fun _ => Held (target.set value reg)) held_stable (fun regs h => ?_)
    (fun regs h => ⟨(), _, rfl⟩) (fun regs _ regs' h hanswer => ?_) fun _ => hnext
  · cases reg with
    | cmd => exact absurd rfl hreg
    | clb => exact h.1
    | clbu => exact h.1
    | fb => exact h.1
    | fbu => exact h.1
    | is => exact h.1
    | serr => exact h.1
  · have hset : regs' = regs.set value reg := hanswer
    rw [hset]
    exact h.set hreg value

/-- The end of `port_rebase`: both bits are set when the addresses are in place. -/
theorem start_proves (port : Fin 32) (regs₀ : PortRegs) :
    Proves portWorld (Allowed port) (Held (portRebase port 0 regs₀))
      (.poll (.read .cmd) (fun value => value &&& 0x8000 == 0) <|
        .call (.read .cmd) fun cmd =>
        .call (.write .cmd (cmd ||| 0x10 ||| 0x01)) fun _ =>
        .ret ())
      fun _ => Rebased port regs₀ := by
  refine .poll (Held (portRebase port 0 regs₀)) held_stable (fun _ _ => trivial) ?_ ?_ ?_ ?_
  · intro regs h
    have hzero : regs.cmd &&& 0x8000 = 0 := and_eq_zero_of_le h.1 (by decide)
    exact ⟨regs, _, _, Relation.ReflTransGen.refl, ⟨rfl, rfl⟩, beq_iff_eq.mpr hzero⟩
  · intro regs _ regs' h hanswer _
    rw [hanswer.2]
    exact h
  · intro regs _ regs' h hanswer _
    rw [hanswer.2]
    exact h
  refine .call (fun value regs => value &&& 0xC011 = 0 ∧ Held (portRebase port 0 regs₀) regs)
    held_stable (fun _ _ => trivial) (fun regs _ => ⟨_, _, rfl, rfl⟩) ?_ fun value => ?_
  · intro regs value regs' h hanswer
    obtain ⟨hvalue, hsame⟩ := hanswer
    rw [hvalue, hsame]
    exact ⟨h.1, h⟩
  have hread : Stable portWorld fun regs =>
      value &&& 0xC011 = 0 ∧ Held (portRebase port 0 regs₀) regs :=
    fun regs regs' h hmove => ⟨h.1, held_stable regs regs' h.2 hmove⟩
  refine .call (fun _ => Rebased port regs₀) hread ?_ (fun _ _ => ⟨(), _, rfl⟩) ?_ fun _ => ?_
  · intro regs h _
    obtain ⟨_, hstopped, cmd₀, rfl⟩ := h
    exact ⟨hstopped, rfl, rfl, portRebase_fb port 0 regs₀, rfl⟩
  · intro regs _ regs' h hanswer
    have hset : regs' = regs.set (value ||| 0x10 ||| 0x01) .cmd := hanswer
    have hcmd := set_cmd_start regs (value ||| 0x10 ||| 0x01)
    rw [← hset, or_start (and_eq_zero_of_le h.1 (by decide))] at hcmd
    obtain ⟨hvalue, _, cmd₀, rfl⟩ := h
    refine ⟨value, hvalue, hcmd, regs'.cmd, ?_⟩
    rw [hset]
    rfl
  · refine .ret ?_ fun _ h => h
    intro regs regs' h hmove
    obtain ⟨cmd, hcmd, hshown⟩ := h
    refine ⟨cmd, hcmd, ?_⟩
    exact Shown.stable (fun _ _ h hshows => hshows.start.trans h) regs regs' hshown hmove

/-- **The outline of `port_rebase`.** -/
theorem portRebase_proves (port : Fin 32) (regs₀ : PortRegs) :
    Proves portWorld (Allowed port) (Shown regs₀ fun _ => True) (portRebaseProg port)
      fun _ => Rebased port regs₀ := by
  have hany : Stable portWorld (Shown regs₀ fun _ => True) := Shown.stable fun _ _ _ _ => trivial
  refine .call (fun _ => Shown regs₀ fun _ => True) hany (fun _ _ => trivial)
    (fun regs _ => ⟨_, _, rfl, rfl⟩) ?_ fun cmd => ?_
  · intro regs _ regs' h hanswer
    rw [hanswer.2]
    exact h
  have hclear : cmd &&& ~~~0x01 &&& ~~~0x10 &&& startBits = 0 := by
    have hmask : ~~~(0x01 : UInt32) &&& (~~~0x10 &&& startBits) = 0 := by decide
    rw [UInt32.and_assoc, UInt32.and_assoc, hmask, UInt32.and_zero]
  have hoff : Stable portWorld (Shown regs₀ fun cmd => cmd &&& startBits = 0) :=
    Shown.stable fun _ _ h hshows => hshows.start.trans h
  refine .call (fun _ => Shown regs₀ fun cmd => cmd &&& startBits = 0) hany
    (fun _ _ hne => absurd hclear hne) (fun _ _ => ⟨(), _, rfl⟩) ?_ fun _ => ?_
  · intro regs _ regs' h hanswer
    have hset : regs' = regs.set (cmd &&& ~~~0x01 &&& ~~~0x10) .cmd := hanswer
    obtain ⟨_, cmd₀, rfl⟩ := h
    rw [hset]
    exact ⟨(set_cmd_start _ _).trans hclear, _, rfl⟩
  refine .poll (Held regs₀) hoff (fun _ _ => trivial) ?_ ?_ ?_ ?_
  · intro regs h
    have hzero : regs.cmd &&& ~~~runningBits &&& 0xC000 = 0 := by
      have hmask : ~~~runningBits &&& 0xC000 = 0 := by decide
      rw [UInt32.and_assoc, hmask, UInt32.and_zero]
    exact ⟨_, _, _, Relation.ReflTransGen.single ⟨_, shows_stopped regs, rfl⟩, ⟨rfl, rfl⟩,
      beq_iff_eq.mpr hzero⟩
  · intro regs _ regs' h hanswer _
    rw [hanswer.2]
    exact h
  · intro regs value regs' h hanswer hstop
    obtain ⟨hvalue, hsame⟩ := hanswer
    rw [hvalue] at hstop
    rw [hsame]
    exact ⟨stopped_of_read h.1 (beq_iff_eq.mp hstop), h.2⟩
  -- the six stores make the registers those of `portRebase`
  exact proves_store (by decide) _ (proves_store (by decide) _ (proves_store (by decide) _
    (proves_store (by decide) _ (proves_store (by decide) _ (proves_store (by decide) _
      (start_proves port regs₀))))))

end Outline

/-! ## Results -/

/-- **Rebasing a port.**  However the hardware moves in between, the driver gives
addresses only to engines that stand still and starts them only with the addresses
in place.  When it is done the registers are those of `portRebase`, and from wherever a
run has led, it can be carried to its end. -/
theorem portRebase_protocol (port : Fin 32) (regs₀ : PortRegs)
    {moves : List ((Prog Access Access.Reply Unit × PortRegs) ×
      Option (Exchange Access Access.Reply))} {q : Prog Access Access.Reply Unit} {regs : PortRegs}
    (run : Run (Interaction.Step portWorld) (portRebaseProg port, regs₀) moves (q, regs)) :
    (∀ t x, (t, some x) ∈ moves → Allowed port t.2 x.1) ∧
      (q = .ret () → Rebased port regs₀ regs) ∧
      ∃ moves' regs', Run (Interaction.Step portWorld) (q, regs) moves' (.ret (), regs') := by
  have hstart : Shown regs₀ (fun _ => True) regs₀ := ⟨trivial, regs₀.cmd, rfl⟩
  obtain ⟨⟨P, hrest, hP⟩, hallowed⟩ := (portRebase_proves port regs₀).run hstart run
  refine ⟨hallowed, fun hdone => ?_, ?_⟩
  · subst hdone
    exact hrest.post hP
  · obtain ⟨moves', _, regs', run'⟩ := hrest.finishes hP
    exact ⟨moves', regs', run'⟩

/-- A port that the firmware has left running. -/
def runningPort : PortRegs := ⟨0x7000000, 0, 0x7000400, 0, 0, 0xC017, 0, 0⟩

/-- An engine that runs when `port_rebase` begins, and a hardware that takes two reads to stop
it. -/
theorem portRebase_protocol_running : ∃ moves regs,
    Run (Interaction.Step portWorld) (portRebaseProg 0, runningPort) moves (.ret (), regs) ∧
      (∀ t x, (t, some x) ∈ moves → Allowed 0 t.2 x.1) ∧ Rebased 0 runningPort regs := by
  obtain ⟨moves, regs, run⟩ := (portRebase_protocol 0 runningPort Run.start).2.2
  obtain ⟨hallowed, hrebased, _⟩ := portRebase_protocol 0 runningPort run
  exact ⟨_, regs, run, hallowed, hrebased rfl⟩

end Ahci
