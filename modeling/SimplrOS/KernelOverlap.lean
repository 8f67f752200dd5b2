import SimplrOS.AhciProtocol

/-!
# The driver's tables and the kernel image

`linker.ld` puts the kernel at `0x100000`, and its `.bss` holds the 16 MiB heap,
so the image reaches past `0x1100000`.  The command lists, the received FISes and
the command tables of all ports are at fixed addresses between `0x100000` and
`0x112000`, hence inside it.
-/

namespace Ahci

open ByteStore History

/-- Where the linker script puts the image. -/
abbrev kernelBase : Nat := 0x100000

/-- A kernel image: how long it is and where its heap array lies. -/
structure KernelImage where
  size : Nat
  heap : Nat
  heap_ge : kernelBase ≤ heap
  heap_le : heap + 16 * 1024 * 1024 ≤ kernelBase + size

/-- Byte `x` belongs to the image. -/
def KernelImage.Contains (K : KernelImage) (x : Nat) : Prop :=
  kernelBase ≤ x ∧ x < kernelBase + K.size

/-- The CPU wrote `x` as part of a command header or table, or the controller
wrote it as part of the command list or the received-FIS area. -/
def Writes (regs : PortRegs) (moves : List (System × Event)) (x : Nat) : Prop :=
  (∃ s i st, (s, Event.store i st) ∈ moves ∧ st.addr = x) ∨
    (ControllerArea regs x ∧ ∃ s v, (s, Event.dma x v) ∈ moves)

/-- In every run of the calls all these writes are outside the image, so that a
byte of the image that is not written as file data keeps its value. -/
structure LeavesKernel (K : KernelImage) (port : Fin 32) (regs : PortRegs)
    (calls : List ReadCall) : Prop where
  outside : ∀ mem moves s, Run (Step (some port) regs) (System.start mem calls) moves s →
    ∀ x, Writes regs moves x → ¬ K.Contains x
  unchanged : ∀ mem moves s, Run (Step (some port) regs) (System.start mem calls) moves s →
    ∀ x, K.Contains x → (∀ s' v, (s', Event.dma x v) ∈ moves → ControllerArea regs x) →
      s.mem x = mem x

/-- Everything below 17 MiB is inside the image. -/
theorem KernelImage.contains_of_lt (K : KernelImage) {x : Nat} (hlo : kernelBase ≤ x)
    (hhi : x < 0x1100000) : K.Contains x := by
  have hge := K.heap_ge
  have hle := K.heap_le
  have hbase : kernelBase = 1048576 := rfl
  exact ⟨hlo, by omega⟩

section Port

variable (K : KernelImage) (port : Fin 32) (cmd : UInt32) (regs : PortRegs)

/-- The low word of the command list's address as it is stored. -/
theorem portRebase_clb : (portRebase port cmd regs).clb = commandList port := rfl

theorem portRebase_fb : (portRebase port cmd regs).fb.toNat = 0x108000 + 0x100 * port := by
  have hport := port.isLt
  simp only [portRebase, UInt32.toNat_add, UInt32.toNat_mul, UInt32.toNat_ofNat',
    UInt32.reduceToNat]
  omega

/-- The areas the controller writes lie inside the image. -/
theorem contains_of_controllerArea {x : Nat} (h : ControllerArea (portRebase port cmd regs) x) :
    K.Contains x := by
  have hport := port.isLt
  have hclb := commandList_toNat port
  have hfb := portRebase_fb port cmd regs
  have hupper : (portRebase port cmd regs).clbu.toNat = 0 := rfl
  have hupper' : (portRebase port cmd regs).fbu.toNat = 0 := rfl
  have hbase : kernelBase = 1048576 := rfl
  unfold ControllerArea at h
  rw [portRebase_clb, hclb, hfb, hupper, hupper'] at h
  exact K.contains_of_lt (by omega) (by omega)

/-- What the driver stores lies inside the image. -/
theorem contains_of_readStores {c : ReadCall} {st : Store} (h : st ∈ readStores port c) :
    K.Contains st.addr := by
  have hport := port.isLt
  have hbase : kernelBase = 1048576 := rfl
  have haddr := readStores_addr h
  rw [commandList_toNat, commandTable_toNat] at haddr
  exact K.contains_of_lt (by omega) (by omega)

end Port

/-- The driver only ever has stores of its own left to make. -/
def StoresInside (K : KernelImage) (s : System) : Prop :=
  ∀ i rest, s.pc = .storing i rest → ∀ st ∈ rest, K.Contains st.addr

/-- Once a store has gone into the kernel's image, it stays on the record. -/
theorem StoresInside.step {K : KernelImage} {port : Fin 32} {regs : PortRegs} {s s' : System}
    {e : Event} (h : StoresInside K s) (move : Step (some port) regs s e s') :
    StoresInside K s' := by
  intro i rest hpc st hst
  cases move with
  | noPort hport => cases hport
  | begin hport hidle htodo =>
      cases hport
      cases hpc
      exact contains_of_readStores K port hst
  | store hstoring =>
      cases hpc
      exact h _ _ hstoring st (List.mem_cons_of_mem _ hst)
  | clearIs => cases hpc
  | issue hissue =>
      unfold System.issueCommand at hpc
      split at hpc
      · cases hpc
      · cases hpc
  | pollBusy => cases hpc
  | pollClear => cases hpc
  | pollLimit => cases hpc
  | pollError => cases hpc
  | pollAgain => cases hpc
  | checkBusy => cases hpc
  | checkClear => cases hpc
  | complete => exact h i rest hpc st hst
  | fail => exact h i rest hpc st hst
  | dma => exact h i rest hpc st hst

/-- **Every write hits the kernel.** -/
theorem writes_inside {K : KernelImage} {port : Fin 32} {cmd : UInt32} {regs : PortRegs}
    {mem : Bytes} {calls : List ReadCall} {moves : List (System × Event)} {s : System}
    (run : Run (Step (some port) (portRebase port cmd regs)) (System.start mem calls) moves s)
    {x : Nat} (h : Writes (portRebase port cmd regs) moves x) : K.Contains x := by
  have hstart : StoresInside K (System.start mem calls) := by
    intro i rest hpc
    cases hpc
  obtain ⟨_, hall⟩ := run.always hstart fun _ _ _ hinv move => hinv.step move
  rcases h with ⟨s', i, st, hmem, rfl⟩ | ⟨harea, _⟩
  · obtain ⟨hinv, s'', move⟩ := hall s' _ hmem
    cases move with
    | store hpc => exact hinv _ _ hpc st List.mem_cons_self
  · exact contains_of_controllerArea K port cmd regs harea

/-- A single received FIS is enough. -/
theorem not_leavesKernel (K : KernelImage) (port : Fin 32) (cmd : UInt32) (regs : PortRegs)
    (calls : List ReadCall) : ¬ LeavesKernel K port (portRebase port cmd regs) calls := by
  intro hleaves
  have hfb : ControllerArea (portRebase port cmd regs) (portRebase port cmd regs).fb.toNat :=
    Or.inr ⟨Nat.le_refl _, Nat.lt_add_of_pos_right (by decide)⟩
  have run : Run (Step (some port) (portRebase port cmd regs)) (System.start (fun _ => 0) calls)
      _ _ := Run.single (Step.dma (v := 0) (Or.inl hfb))
  exact hleaves.outside _ _ _ run _ (Or.inr ⟨hfb, _, 0, List.mem_cons_self⟩)
    (contains_of_controllerArea K port cmd regs hfb)

/-- The first store of a call already changes a byte of the image. -/
theorem firstStore_changes (K : KernelImage) (port : Fin 32) (regs : PortRegs) (c : ReadCall)
    (rest : List ReadCall) : ∃ moves s,
      Run (Step (some port) regs) (System.start (fun _ => 0) (c :: rest)) moves s ∧
      K.Contains (commandList port).toNat ∧ s.mem (commandList port).toNat = 5 := by
  let first : Store := ⟨(commandList port).toNat, fun b => (b &&& ~~~(0x1F : UInt8)) ||| 5⟩
  have hhead : readStores port c = first :: (readStores port c).tail := by
    simp [readStores, headerStores, first]
  have hfirst : first ∈ readStores port c := by
    rw [hhead]
    exact List.mem_cons_self
  have hbegin : Run (Step (some port) regs) (System.start (fun _ => 0) (c :: rest)) _ _ :=
    Run.single (Step.begin rfl rfl rfl)
  rw [hhead] at hbegin
  have hbyte : first.run (fun _ => 0) first.addr = 5 := Store.run_same first _
  exact ⟨_, _, Run.next hbegin (Step.store rfl), contains_of_readStores K port hfirst, hbyte⟩

/-- **The tables lie in the kernel.**  For every image, port, hardware state and
sequence of calls the driver does not leave the kernel alone: all its writes land
in the image, and the first store of the first call changes it. -/
theorem kernel_overwritten (K : KernelImage) (port : Fin 32) (cmd : UInt32) (regs : PortRegs)
    (calls : List ReadCall) :
    ¬ LeavesKernel K port (portRebase port cmd regs) calls ∧
    (∀ mem moves s,
      Run (Step (some port) (portRebase port cmd regs)) (System.start mem calls) moves s →
      ∀ x, Writes (portRebase port cmd regs) moves x → K.Contains x) ∧
    (∀ c rest, calls = c :: rest → ∃ moves s,
      Run (Step (some port) (portRebase port cmd regs)) (System.start (fun _ => 0) calls) moves s ∧
      K.Contains (commandList port).toNat ∧ s.mem (commandList port).toNat = 5) := by
  refine ⟨not_leavesKernel K port cmd regs calls,
    fun _ _ _ run _ hwrites => writes_inside run hwrites, fun c rest hcalls => ?_⟩
  rw [hcalls]
  exact firstStore_changes K port _ c rest

/-- An image with nothing in front of its heap. -/
def smallestKernel : KernelImage := ⟨16 * 1024 * 1024, kernelBase, by decide, by decide⟩

/-- Reading through port 0 puts the command header on the first byte of the
kernel. -/
theorem portZero_overwrites : ∃ moves s,
    Run (Step (some 0) portZero) (System.start (fun _ => 0) [readZero]) moves s ∧
      smallestKernel.Contains 0x100000 ∧ s.mem 0x100000 = 5 ∧
      ¬ LeavesKernel smallestKernel 0 portZero [readZero] := by
  obtain ⟨moves, s, run, hinside, hbyte⟩ :=
    firstStore_changes smallestKernel 0 portZero readZero []
  have haddr : (commandList 0).toNat = 0x100000 := rfl
  rw [haddr] at hinside hbyte
  exact ⟨moves, s, run, hinside, hbyte, not_leavesKernel smallestKernel 0 0 _ [readZero]⟩

end Ahci
