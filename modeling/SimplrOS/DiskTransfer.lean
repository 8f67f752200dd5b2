import SimplrOS.AhciEncoding
import SimplrOS.FssoReader
import SimplrOS.KernelOverlap

/-!
# Reads as transfers

What `ahci_read` is for: to copy sectors of the disk to a buffer.  `transfer` is that copy,
and a run of the driver and the controller, in whatever order they move, comes to
doing one copy for each call.

The controller may store to the byte count of the command header, to the area of received
FISes and, while a command is in flight, to the buffer that the command names, as often and
in whatever order it likes.  It completes a command only when the buffer holds the
sectors.  What a failed command has left in its buffer is open.
-/

namespace Ahci

open ByteStore Fsso History

/-- The bytes of the buffer of a call. -/
def ReadCall.Buffer (c : ReadCall) (x : Nat) : Prop :=
  c.buffer.toNat ≤ x ∧ x < c.buffer.toNat + 512 * c.count.toNat

/-- The memory after the sectors have been copied. -/
def transfer (disk mem : Bytes) (c : ReadCall) : Bytes :=
  copyBytes mem c.buffer.toNat (fun k => disk (512 * c.lba.toNat + k)) (512 * c.count.toNat)

/-- The memory after all calls. -/
def transfers (disk mem : Bytes) (calls : List ReadCall) : Bytes :=
  calls.foldl (transfer disk) mem

/-- The bytes a command is read from: the table address in the header, and the table. -/
def Command (p : Fin 32) (x : Nat) : Prop :=
  ((commandList p).toNat + 8 ≤ x ∧ x < (commandList p).toNat + 16) ∨
    ((commandTable p).toNat ≤ x ∧ x < (commandTable p).toNat + 144)

/-- `prdbc` of the command header and the area of received FISes. -/
def Notices (p : Fin 32) (x : Nat) : Prop :=
  ((commandList p).toNat + 4 ≤ x ∧ x < (commandList p).toNat + 8) ∨
    (0x108000 + 0x100 * (p : Nat) ≤ x ∧ x < 0x108000 + 0x100 * (p : Nat) + 256)

/-- The bytes that the driver and the controller share besides the buffers. -/
def Shared (p : Fin 32) (x : Nat) : Prop :=
  ((commandList p).toNat ≤ x ∧ x < (commandList p).toNat + 16) ∨ Command p x ∨ Notices p x

/-- The call can be encoded and its buffer is apart from the shared bytes. -/
structure Proper (p : Fin 32) (c : ReadCall) : Prop where
  fits : Encodable c
  apart : ∀ x, c.Buffer x → ¬ Shared p x

/-- The buffer that the command names holds the sectors that it names. -/
def Delivered (disk mem : Bytes) (p : Fin 32) : Prop :=
  let t := decode mem (commandList p).toNat
  ∀ k, k < t.bytes → mem (t.addr + k) = disk (512 * t.lba + k)

/-- What the controller does. -/
def Serves (disk : Bytes) (p : Fin 32) (s : System) : Event → Prop
  | .dma x _ =>
      Notices p x ∨
        (s.ci = true ∧ (decode s.mem (commandList p).toNat).addr ≤ x ∧
          x < (decode s.mem (commandList p).toNat).addr +
            (decode s.mem (commandList p).toNat).bytes)
  | .complete => Delivered disk s.mem p
  | _ => True

/-! ## Copies -/

/-- Bytes outside the buffer are kept. -/
theorem transfer_of_out {disk mem : Bytes} {c : ReadCall} {x : Nat} (h : ¬ c.Buffer x) :
    transfer disk mem c x = mem x := by
  rw [transfer, copyBytes_apply]
  exact if_neg h

/-- Bytes of the buffer come from the disk. -/
theorem transfer_of_mem {disk mem : Bytes} {c : ReadCall} {x : Nat} (h : c.Buffer x) :
    transfer disk mem c x = disk (512 * c.lba.toNat + (x - c.buffer.toNat)) := by
  rw [transfer, copyBytes_apply]
  exact if_pos h

/-- One more call. -/
theorem transfers_take (disk mem : Bytes) {calls : List ReadCall} {n : Nat} {c : ReadCall}
    (h : calls[n]? = some c) :
    transfers disk mem (calls.take (n + 1)) =
      transfer disk (transfers disk mem (calls.take n)) c := by
  obtain ⟨hn, hc⟩ := List.getElem?_eq_some_iff.mp h
  rw [transfers, List.take_succ_eq_append_getElem hn, List.foldl_concat, hc]
  rfl

/-! ## The command in memory -/

/-- The memory holds the command of the call. -/
def Programmed (p : Fin 32) (c : ReadCall) (mem : Bytes) : Prop :=
  ∃ mem₀, ∀ x, Command p x → mem x = runStores mem₀ (readStores p c) x

section Command

variable {p : Fin 32} {c : ReadCall} {mem mem' : Bytes}

/-- What is decoded depends on the command only. -/
theorem decode_congr (hsame : ∀ x, Command p x → mem x = mem' x)
    (htable : headerTable mem' (commandList p).toNat = (commandTable p).toNat) :
    decode mem (commandList p).toNat = decode mem' (commandList p).toNat := by
  have hlow : word32 mem ((commandList p).toNat + 8) = word32 mem' ((commandList p).toNat + 8) :=
    word32_congr fun x hlo hhi => hsame x (Or.inl ⟨hlo, by omega⟩)
  have hhigh : word32 mem ((commandList p).toNat + 12) =
      word32 mem' ((commandList p).toNat + 12) :=
    word32_congr fun x hlo hhi => hsame x (Or.inl ⟨by omega, by omega⟩)
  have hheader : headerTable mem (commandList p).toNat = (commandTable p).toNat := by
    rw [headerTable, hlow, hhigh]
    exact htable
  have hin : ∀ k < 144, mem ((commandTable p).toNat + k) = mem' ((commandTable p).toNat + k) :=
    fun k hk => hsame _ (Or.inr ⟨Nat.le_add_right _ k, by omega⟩)
  have hword : ∀ k, k + 4 ≤ 144 →
      word32 mem ((commandTable p).toNat + k) = word32 mem' ((commandTable p).toNat + k) :=
    fun k hk => word32_congr fun x hlo hhi => hsame x (Or.inr ⟨by omega, by omega⟩)
  have hcount : word16 mem ((commandTable p).toNat + 12) =
      word16 mem' ((commandTable p).toNat + 12) := by
    rw [word16, word16]
    congr 1
    exact leNat_ext fun i hi => hsame _ (Or.inr ⟨by omega, by omega⟩)
  simp only [decode, hheader, htable, fisLba, hcount, hin 4 (by decide), hin 5 (by decide),
    hin 6 (by decide), hin 8 (by decide), hin 9 (by decide), hin 10 (by decide),
    hword 128 (by decide), hword 132 (by decide), hword 140 (by decide)]

/-- The controller is told the request. -/
theorem Programmed.decode (h : Programmed p c mem) (hfits : Encodable c) :
    (decode mem (commandList p).toNat).Exact c := by
  obtain ⟨mem₀, hsame⟩ := h
  have hport := p.isLt
  have hlist := commandList_toNat p
  have htable := commandTable_toNat p
  have hheader : headerTable (runStores mem₀ (readStores p c)) (commandList p).toNat =
      (commandTable p).toNat := by
    have hbelow : ∀ x, x < (commandTable p).toNat → runStores mem₀ (readStores p c) x =
        runStores mem₀ (headerStores (commandList p).toNat (commandTable p).toNat) x :=
      fun x hx => readStores_below p mem₀ c hx
    have hlow := word32_congr (a := (commandList p).toNat + 8) fun x _ hhi => hbelow x (by omega)
    have hhigh := word32_congr (a := (commandList p).toNat + 12) fun x _ hhi => hbelow x (by omega)
    rw [headerTable, hlow, hhigh]
    exact headerTable_headerStores mem₀ _ _ (commandTable p).toNat_lt
  rw [decode_congr hsame hheader]
  exact (exact_iff (decode_readStores p mem₀ c)).mpr hfits

/-- The stores of a call program it. -/
theorem Programmed.of_stores (p : Fin 32) (c : ReadCall) (mem : Bytes) :
    Programmed p c (runStores mem (readStores p c)) := ⟨mem, fun _ _ => rfl⟩

/-- Stores next to the command leave it alone. -/
theorem Programmed.put (h : Programmed p c mem) {x : Nat} (hx : ¬ Command p x) (v : UInt8) :
    Programmed p c (put mem x v) := by
  obtain ⟨mem₀, hsame⟩ := h
  refine ⟨mem₀, fun y hy => ?_⟩
  have hne : y ≠ x := fun heq => hx (heq ▸ hy)
  rw [put_ne _ _ hne]
  exact hsame y hy

/-- The notices of the controller lie apart from the command. -/
theorem not_command_of_notices {x : Nat} (h : Notices p x) : ¬ Command p x := by
  have hport := p.isLt
  have hlist := commandList_toNat p
  have htable := commandTable_toNat p
  intro hcommand
  unfold Notices at h
  unfold Command at hcommand
  omega

/-- Equal bytes stay equal under the same store. -/
theorem Store.run_congr (st : Store) {x : Nat} (h : mem x = mem' x) :
    st.run mem x = st.run mem' x := by
  by_cases hx : x = st.addr
  · subst hx
    rw [st.run_same, st.run_same, h]
  · rw [Store.run, Store.run, put_ne _ _ hx, put_ne _ _ hx]
    exact h

/-- The driver stores into the shared bytes only. -/
theorem shared_of_readStores {st : Store} (h : st ∈ readStores p c) : Shared p st.addr := by
  rcases readStores_addr h with hheader | htable
  · exact Or.inl hheader
  · exact Or.inr (Or.inl (Or.inr htable))

end Command

/-! ## A byte of memory over a run -/

/-- A command in flight that is about other bytes than `x`. -/
def Elsewhere (p : Fin 32) (x : Nat) (mem : Bytes) : Prop :=
  ∃ c, Proper p c ∧ Programmed p c mem ∧ ¬ c.Buffer x

/-- The call that is being made. -/
structure Current (calls : List ReadCall) (s : System) (n : Nat) (c : ReadCall) : Prop where
  call : s.call = n + 1
  get : calls[n]? = some c

/-- Some of the stores of a call have been made.  Only before the first of them can the
slot be busy, with the command of a call that was given up. -/
structure Preparing (p : Fin 32) (c : ReadCall) (x i : Nat) (rest : List Store) (s : System) :
    Prop where
  stores : ∃ mem₀ stored, stored.length = i ∧ stored ++ rest = readStores p c ∧
    ∀ y, Command p y → s.mem y = runStores mem₀ stored y
  busy : s.ci = true → i = 0 ∧ Elsewhere p x s.mem

/-- The command of a call has been issued. -/
structure InFlight (disk mem : Bytes) (p : Fin 32) (calls : List ReadCall) (x : Nat)
    (s : System) (n : Nat) (c : ReadCall) : Prop where
  current : Current calls s n c
  programmed : Programmed p c s.mem
  before : ¬ c.Buffer x → s.mem x = transfers disk mem (calls.take n) x
  done : s.ci = false → s.mem x = transfers disk mem (calls.take s.call) x

/-- What the byte at `x` holds, by the state of the driver. -/
def Progress (disk mem : Bytes) (p : Fin 32) (calls : List ReadCall) (x : Nat)
    (s : System) : Prop :=
  match s.pc with
  | .idle =>
      s.mem x = transfers disk mem (calls.take s.call) x ∧ (s.ci = true → Elsewhere p x s.mem)
  | .storing i rest => ∃ n c, Current calls s n c ∧ Preparing p c x i rest s ∧
      s.mem x = transfers disk mem (calls.take n) x
  | .issue => ∃ n c, Current calls s n c ∧ Programmed p c s.mem ∧ s.ci = false ∧
      s.mem x = transfers disk mem (calls.take n) x
  | .pollCi _ => ∃ n c, InFlight disk mem p calls x s n c
  | .pollIs _ => ∃ n c, InFlight disk mem p calls x s n c
  | .check => ∃ n c, InFlight disk mem p calls x s n c

/-- The byte is followed over all states. -/
structure Followed (disk mem : Bytes) (p : Fin 32) (calls : List ReadCall) (x : Nat)
    (s : System) : Prop where
  todo : s.todo = calls.drop s.call
  progress : Progress disk mem p calls x s

/-- A call that gives up does not spoil `x`. -/
def Spares (calls : List ReadCall) (x : Nat) (s : System) : Event → Prop
  | .ret code => code ≠ 0 → ∀ n c, Current calls s n c → ¬ c.Buffer x
  | _ => True

section Byte

variable {disk mem : Bytes} {p : Fin 32} {calls : List ReadCall} {x : Nat} {s s' : System}

/-- The controller stores to no command. -/
theorem Programmed.apart {c : ReadCall} (h : Programmed p c s.mem) (hproper : Proper p c)
    {y : Nat} {v : UInt8} (hserves : Serves disk p s (.dma y v)) :
    ¬ Command p y ∧ (Notices p y ∨ (s.ci = true ∧ c.Buffer y)) := by
  obtain ⟨_, _, haddr, hbytes, _⟩ := h.decode hproper.fits
  rcases hserves with hnotice | ⟨hci, hlo, hhi⟩
  · exact ⟨not_command_of_notices hnotice, Or.inl hnotice⟩
  · rw [haddr] at hlo
    rw [haddr, hbytes] at hhi
    have hbuffer : c.Buffer y := ⟨hlo, hhi⟩
    exact ⟨fun hcommand => hproper.apart y hbuffer (Or.inr (Or.inl hcommand)),
      Or.inr ⟨hci, hbuffer⟩⟩

/-- The command of a call that was given up does not reach `x`. -/
theorem Elsewhere.dma (h : Elsewhere p x s.mem) (hx : ¬ Shared p x) {y : Nat} {v : UInt8}
    (hserves : Serves disk p s (.dma y v)) :
    ¬ Command p y ∧ x ≠ y ∧ Elsewhere p x (put s.mem y v) := by
  obtain ⟨c, hproper, hprogrammed, hout⟩ := h
  obtain ⟨hcommand, hwhere⟩ := hprogrammed.apart hproper hserves
  refine ⟨hcommand, ?_, c, hproper, hprogrammed.put hcommand v, hout⟩
  rcases hwhere with hnotice | ⟨_, hbuffer⟩
  · exact fun heq => hx (heq ▸ Or.inr (Or.inr hnotice))
  · exact fun heq => hout (heq ▸ hbuffer)

/-- With a free slot the controller only leaves notices. -/
theorem notices_of_free (hci : s.ci = false) {y : Nat} {v : UInt8}
    (hserves : Serves disk p s (.dma y v)) : Notices p y := by
  rcases hserves with hnotice | ⟨hbusy, _⟩
  · exact hnotice
  · rw [hci] at hbusy
    cases hbusy

theorem ne_of_notices (hx : ¬ Shared p x) {y : Nat} (h : Notices p y) : x ≠ y :=
  fun heq => hx (heq ▸ Or.inr (Or.inr h))

/-- A busy slot at a call's beginning, or a free one: the controller keeps off the
commands and off `x`. -/
theorem dma_apart (hx : ¬ Shared p x) (hbusy : s.ci = true → Elsewhere p x s.mem) {y : Nat}
    {v : UInt8} (hserves : Serves disk p s (.dma y v)) : ¬ Command p y ∧ x ≠ y := by
  cases hci : s.ci with
  | false =>
      have hnotice := notices_of_free hci hserves
      exact ⟨not_command_of_notices hnotice, ne_of_notices hx hnotice⟩
  | true =>
      obtain ⟨hcommand, hne, _⟩ := (hbusy hci).dma hx hserves
      exact ⟨hcommand, hne⟩

/-- While the command is in flight the controller may store to the buffer. -/
theorem InFlight.dma {n : Nat} {c : ReadCall} (h : InFlight disk mem p calls x s n c)
    (hproper : Proper p c) (hx : ¬ Shared p x) {y : Nat} {v : UInt8}
    (hserves : Serves disk p s (.dma y v)) :
    InFlight disk mem p calls x { s with mem := put s.mem y v } n c := by
  obtain ⟨hcommand, hwhere⟩ := h.programmed.apart hproper hserves
  refine ⟨⟨h.current.call, h.current.get⟩, h.programmed.put hcommand v, fun hout => ?_,
    fun hci => ?_⟩
  · have hne : x ≠ y := by
      rcases hwhere with hnotice | ⟨_, hbuffer⟩
      · exact ne_of_notices hx hnotice
      · exact fun heq => hout (heq ▸ hbuffer)
    exact (put_ne _ _ hne).trans (h.before hout)
  · have hfree : s.ci = false := hci
    have hne := ne_of_notices hx (notices_of_free hfree hserves)
    exact (put_ne _ _ hne).trans (h.done hci)

/-- Completing the command in flight completes the copy. -/
theorem InFlight.complete {n : Nat} {c : ReadCall} (h : InFlight disk mem p calls x s n c)
    (hproper : Proper p c) (hdelivered : Delivered disk s.mem p) :
    s.mem x = transfers disk mem (calls.take s.call) x := by
  obtain ⟨hlba, _, haddr, hbytes, _⟩ := h.programmed.decode hproper.fits
  rw [h.current.call, transfers_take disk mem h.current.get]
  by_cases hin : c.Buffer x
  · have hoffset : x - c.buffer.toNat < 512 * c.count.toNat := by
      obtain ⟨_, _⟩ := hin
      omega
    rw [← hbytes] at hoffset
    have hbyte := hdelivered (x - c.buffer.toNat) hoffset
    rw [haddr, hlba, Nat.add_sub_cancel' hin.1] at hbyte
    rw [transfer_of_mem hin]
    exact hbyte
  · rw [transfer_of_out hin]
    exact h.before hin

/-- A call that gives up has copied nothing elsewhere. -/
theorem InFlight.given_up {n : Nat} {c : ReadCall} (h : InFlight disk mem p calls x s n c)
    (hout : ¬ c.Buffer x) : s.mem x = transfers disk mem (calls.take s.call) x := by
  rw [h.current.call, transfers_take disk mem h.current.get, transfer_of_out hout]
  exact h.before hout

/-- A store of a call, and no other, finds the slot free already or makes sure of it. -/
theorem Preparing.free {c : ReadCall} {i : Nat} {st : Store} {rest : List Store}
    (h : Preparing p c x i (st :: rest) s) (hfirst : FreeStart s (.store i st)) :
    s.ci = false := by
  cases hci : s.ci with
  | false => rfl
  | true =>
      obtain ⟨rfl, _⟩ := h.busy hci
      exact hci.symm.trans hfirst

/-- A store goes into the shared bytes and brings the command on by one. -/
theorem Preparing.store {c : ReadCall} {i : Nat} {st : Store} {rest : List Store}
    (h : Preparing p c x i (st :: rest) s) (hfree : s.ci = false) :
    Shared p st.addr ∧ Preparing p c x (i + 1) rest
      { s with mem := st.run s.mem, pc := .storing (i + 1) rest } := by
  obtain ⟨⟨mem₀, stored, hlength, hstores, hsame⟩, _⟩ := h
  refine ⟨shared_of_readStores (c := c) ?_, ⟨mem₀, stored ++ [st], ?_, ?_, ?_⟩, ?_⟩
  · rw [← hstores]
    exact List.mem_append_right _ List.mem_cons_self
  · rw [List.length_append, hlength]
    rfl
  · rw [List.append_assoc]
    exact hstores
  · intro y hy
    rw [runStores_append]
    exact Store.run_congr st (hsame y hy)
  · intro hci
    exact absurd (hfree.symm.trans hci) Bool.false_ne_true

/-- After the last store the command is programmed. -/
theorem Preparing.programmed {c : ReadCall} {i : Nat} (h : Preparing p c x i [] s) :
    Programmed p c s.mem ∧ s.ci = false := by
  obtain ⟨⟨mem₀, stored, hlength, hstores, hsame⟩, hbusy⟩ := h
  rw [List.append_nil] at hstores
  refine ⟨⟨mem₀, hstores ▸ hsame⟩, ?_⟩
  cases hci : s.ci with
  | false => rfl
  | true =>
      obtain ⟨rfl, _⟩ := hbusy hci
      rw [List.length_eq_zero_iff.mp hlength] at hstores
      exact absurd hstores.symm (readStores_ne_nil p c)

/-- The controller leaves a command that is being prepared alone. -/
theorem Preparing.dma {c : ReadCall} {i : Nat} {rest : List Store}
    (h : Preparing p c x i rest s) (hx : ¬ Shared p x) {y : Nat} {v : UInt8}
    (hserves : Serves disk p s (.dma y v)) :
    x ≠ y ∧ Preparing p c x i rest { s with mem := put s.mem y v } := by
  obtain ⟨⟨mem₀, stored, hlength, hstores, hsame⟩, hbusy⟩ := h
  obtain ⟨hcommand, hne⟩ := dma_apart hx (fun hci => (hbusy hci).2) hserves
  refine ⟨hne, ⟨mem₀, stored, hlength, hstores, ?_⟩, ?_⟩
  · intro z hz
    have hapart : z ≠ y := fun heq => hcommand (heq ▸ hz)
    exact (put_ne _ _ hapart).trans (hsame z hz)
  · exact fun hci => ⟨(hbusy hci).1, ((hbusy hci).2.dma hx hserves).2.2⟩

/-- A command in flight is the current one at another place of the polling. -/
theorem InFlight.moved {n : Nat} {c : ReadCall} (h : InFlight disk mem p calls x s n c) (pc : Pc) :
    InFlight disk mem p calls x { s with pc := pc } n c := by
  obtain ⟨⟨hcall, hget⟩, hprogrammed, hbefore, hdone⟩ := h
  exact ⟨⟨hcall, hget⟩, hprogrammed, hbefore, hdone⟩

/-- A completion. -/
theorem Progress.complete (hproper : ∀ c ∈ calls, Proper p c)
    (h : Progress disk mem p calls x s) (hdelivered : Delivered disk s.mem p) (slots : List Nat) :
    Progress disk mem p calls x { s with ci := false, completed := slots } := by
  unfold Progress at h ⊢
  dsimp only
  split at h
  · exact ⟨h.1, fun hbad => by cases hbad⟩
  · obtain ⟨n, c, hcurrent, ⟨hstores, _⟩, hbyte⟩ := h
    exact ⟨n, c, ⟨hcurrent.call, hcurrent.get⟩, ⟨hstores, fun hbad => by cases hbad⟩, hbyte⟩
  · obtain ⟨n, c, hcurrent, hprogrammed, _, hbyte⟩ := h
    exact ⟨n, c, ⟨hcurrent.call, hcurrent.get⟩, hprogrammed, rfl, hbyte⟩
  all_goals
    obtain ⟨n, c, hflight⟩ := h
    have hbyte :=
      hflight.complete (hproper c (List.mem_of_getElem? hflight.current.get)) hdelivered
    obtain ⟨⟨hcall, hget⟩, hprogrammed, hbefore, _⟩ := hflight
    exact ⟨n, c, ⟨hcall, hget⟩, hprogrammed, hbefore, fun _ => hbyte⟩

/-- A failure shows in the registers only. -/
theorem Progress.fail (h : Progress disk mem p calls x s) :
    Progress disk mem p calls x { s with failed := true, tfes := true } := by
  unfold Progress at h ⊢
  dsimp only
  split at h
  · exact h
  · obtain ⟨n, c, hcurrent, ⟨hstores, hbusy⟩, hbyte⟩ := h
    exact ⟨n, c, ⟨hcurrent.call, hcurrent.get⟩, ⟨hstores, hbusy⟩, hbyte⟩
  · obtain ⟨n, c, hcurrent, hprogrammed, hfree, hbyte⟩ := h
    exact ⟨n, c, ⟨hcurrent.call, hcurrent.get⟩, hprogrammed, hfree, hbyte⟩
  all_goals
    obtain ⟨n, c, ⟨hcall, hget⟩, hprogrammed, hbefore, hdone⟩ := h
    exact ⟨n, c, ⟨hcall, hget⟩, hprogrammed, hbefore, hdone⟩

/-- A store of the controller. -/
theorem Progress.dma (hproper : ∀ c ∈ calls, Proper p c) (hx : ¬ Shared p x)
    (h : Progress disk mem p calls x s) {y : Nat} {v : UInt8}
    (hserves : Serves disk p s (.dma y v)) :
    Progress disk mem p calls x { s with mem := put s.mem y v } := by
  unfold Progress at h ⊢
  dsimp only
  split at h
  · obtain ⟨hbyte, hbusy⟩ := h
    obtain ⟨_, hne⟩ := dma_apart hx hbusy hserves
    exact ⟨(put_ne _ _ hne).trans hbyte, fun hci => ((hbusy hci).dma hx hserves).2.2⟩
  · obtain ⟨n, c, hcurrent, hpreparing, hbyte⟩ := h
    obtain ⟨hne, hpreparing⟩ := hpreparing.dma hx hserves
    exact ⟨n, c, ⟨hcurrent.call, hcurrent.get⟩, hpreparing, (put_ne _ _ hne).trans hbyte⟩
  · obtain ⟨n, c, hcurrent, hprogrammed, hfree, hbyte⟩ := h
    have hnotice := notices_of_free hfree hserves
    exact ⟨n, c, ⟨hcurrent.call, hcurrent.get⟩,
      hprogrammed.put (not_command_of_notices hnotice) v, hfree,
      (put_ne _ _ (ne_of_notices hx hnotice)).trans hbyte⟩
  all_goals
    obtain ⟨n, c, hflight⟩ := h
    exact ⟨n, c, hflight.dma (hproper c (List.mem_of_getElem? hflight.current.get)) hx hserves⟩

/-- **Step lemma.** -/
theorem Followed.step {regs : PortRegs} {e : Event} (hproper : ∀ c ∈ calls, Proper p c)
    (hx : ¬ Shared p x) (h : Followed disk mem p calls x s)
    (hallowed : Serves disk p s e ∧ FreeStart s e ∧ Spares calls x s e)
    (move : Step (some p) regs s e s') : Followed disk mem p calls x s' := by
  obtain ⟨htodo, h⟩ := h
  obtain ⟨hserves, hfirst, hspares⟩ := hallowed
  -- a call that gives up leaves its command behind, away from `x`
  have hleft : ∀ {n : Nat} {c : ReadCall}, InFlight disk mem p calls x s n c → ¬ c.Buffer x →
      Elsewhere p x s.mem := fun hflight hout =>
    ⟨_, hproper _ (List.mem_of_getElem? hflight.current.get), hflight.programmed, hout⟩
  cases move with
  | noPort hport hpc hcalls => cases hport
  | @begin p' c rest hport hpc hcalls =>
      cases hport
      rw [Progress, hpc] at h
      obtain ⟨hbyte, hbusy⟩ := h
      rw [hcalls] at htodo
      have hget : calls[s.call]? = some c := by
        rw [← List.head?_drop, ← htodo]
        rfl
      refine ⟨?_, s.call, c, ⟨rfl, hget⟩, ⟨⟨s.mem, [], rfl, rfl, fun _ _ => rfl⟩, fun hci => ?_⟩,
        hbyte⟩
      · change rest = calls.drop (s.call + 1)
        rw [← List.drop_drop, ← htodo]
        rfl
      · exact ⟨rfl, hbusy hci⟩
  | @store i st rest hpc =>
      rw [Progress, hpc] at h
      obtain ⟨n, c, hcurrent, hpreparing, hbyte⟩ := h
      obtain ⟨hshared, hnext⟩ := hpreparing.store (hpreparing.free hfirst)
      have hne : x ≠ st.addr := fun heq => hx (heq ▸ hshared)
      exact ⟨htodo, n, c, ⟨hcurrent.call, hcurrent.get⟩, hnext, (put_ne _ _ hne).trans hbyte⟩
  | @clearIs i hpc =>
      rw [Progress, hpc] at h
      obtain ⟨n, c, hcurrent, hpreparing, hbyte⟩ := h
      obtain ⟨hprogrammed, hfree⟩ := hpreparing.programmed
      exact ⟨htodo, n, c, ⟨hcurrent.call, hcurrent.get⟩, hprogrammed, hfree, hbyte⟩
  | issue hpc =>
      rw [Progress, hpc] at h
      obtain ⟨n, c, hcurrent, hprogrammed, hfree, hbyte⟩ := h
      rw [System.issueCommand, if_neg (by rw [hfree]; exact Bool.false_ne_true)]
      refine ⟨htodo, n, c, ⟨hcurrent.call, hcurrent.get⟩, hprogrammed, fun _ => hbyte,
        fun hci => ?_⟩
      cases hci
  | pollBusy hpc hlimit hci =>
      rw [Progress, hpc] at h
      obtain ⟨n, c, hflight⟩ := h
      exact ⟨htodo, n, c, hflight.moved _⟩
  | pollClear hpc hlimit hci =>
      rw [Progress, hpc] at h
      obtain ⟨n, c, hflight⟩ := h
      exact ⟨htodo, n, c, hflight.moved _⟩
  | pollLimit hpc hlimit =>
      rw [Progress, hpc] at h
      obtain ⟨n, c, hflight⟩ := h
      exact ⟨htodo, n, c, hflight.moved _⟩
  | pollAgain hpc htfes =>
      rw [Progress, hpc] at h
      obtain ⟨n, c, hflight⟩ := h
      exact ⟨htodo, n, c, hflight.moved _⟩
  | pollError hpc htfes =>
      rw [Progress, hpc] at h
      obtain ⟨n, c, hflight⟩ := h
      have hout := hspares (by decide) n c hflight.current
      exact ⟨htodo, hflight.given_up hout, fun _ => hleft hflight hout⟩
  | checkBusy hpc hci =>
      rw [Progress, hpc] at h
      obtain ⟨n, c, hflight⟩ := h
      have hout := hspares (by decide) n c hflight.current
      exact ⟨htodo, hflight.given_up hout, fun _ => hleft hflight hout⟩
  | checkClear hpc hci =>
      rw [Progress, hpc] at h
      obtain ⟨n, c, hflight⟩ := h
      refine ⟨htodo, hflight.done hci, fun hbusy => ?_⟩
      exact absurd (hci.symm.trans hbusy) Bool.false_ne_true
  | complete hci hlive => exact ⟨htodo, h.complete hproper hserves _⟩
  | fail hci hlive => exact ⟨htodo, h.fail⟩
  | @dma y v harea => exact ⟨htodo, h.dma hproper hx hserves⟩

theorem Followed.start : Followed disk mem p calls x (System.start mem calls) :=
  ⟨rfl, rfl, fun hci => by cases hci⟩

/-- Between calls, and when a call returns 0. -/
theorem Followed.read (h : Followed disk mem p calls x s) :
    (s.pc = .idle → s.mem x = transfers disk mem (calls.take s.call) x) ∧
      (s.pc = .check → s.ci = false → s.mem x = transfers disk mem (calls.take s.call) x) := by
  have hprogress := h.progress
  unfold Progress at hprogress
  constructor
  · intro hpc
    rw [hpc] at hprogress
    exact hprogress.1
  · intro hpc hci
    rw [hpc] at hprogress
    obtain ⟨n, c, hflight⟩ := hprogress
    exact hflight.done hci

/-- Behind the loop a call is being made. -/
theorem Followed.current (h : Followed disk mem p calls x s) (hpc : s.pc = .check) :
    ∃ n c, Current calls s n c := by
  have hprogress := h.progress
  unfold Progress at hprogress
  rw [hpc] at hprogress
  obtain ⟨n, c, hflight⟩ := hprogress
  exact ⟨n, c, hflight.current⟩

end Byte

/-! ## Runs -/

/-- The current call returns something else than 0, and `x` is in its buffer. -/
def Spoiled (calls : List ReadCall) (moves : List (System × Event)) (x : Nat) : Prop :=
  ∃ s code n c, (s, Event.ret code) ∈ moves ∧ code ≠ 0 ∧ Current calls s n c ∧ c.Buffer x

section Run

variable {disk mem : Bytes} {p : Fin 32} {regs : PortRegs} {calls : List ReadCall}
  {moves : List (System × Event)} {s : System}

/-- **Run lemma.** -/
theorem run_followed (hproper : ∀ c ∈ calls, Proper p c)
    (run : Run (Step (some p) regs) (System.start mem calls) moves s)
    (hserves : ∀ s e, (s, e) ∈ moves → Serves disk p s e) (hfree : StartsFree moves) {x : Nat}
    (hx : ¬ Shared p x) (hspoiled : ¬ Spoiled calls moves x) :
    Followed disk mem p calls x s ∧
      ∀ s' e, (s', e) ∈ moves → Followed disk mem p calls x s' ∧
        ∃ s'', Step (some p) regs s' e s'' := by
  refine run.invariant Followed.start
    (fun s e s' hinv hallowed move => hinv.step hproper hx hallowed move) fun s e hmem =>
      ⟨hserves s e hmem, ?_, ?_⟩
  · unfold FreeStart
    split
    · exact hfree s _ hmem
    · trivial
  · unfold Spares
    split
    · rename_i code
      intro hcode n c hcurrent hbuffer
      exact hspoiled ⟨s, code, n, c, hmem, hcode, hcurrent, hbuffer⟩
    · trivial

/-- The slot is free while no command is in flight. -/
def FreeBetween (s : System) : Prop :=
  match s.pc with
  | .pollCi _ => True
  | .pollIs _ => True
  | .check => True
  | _ => s.ci = false

/-- **Step lemma.** -/
theorem FreeBetween.step {s s' : System} {e : Event} (h : FreeBetween s)
    (hzero : ∀ code, e = .ret code → code = 0) (move : Step (some p) regs s e s') :
    FreeBetween s' := by
  unfold FreeBetween at h
  cases move with
  | noPort hport hpc htodo => cases hport
  | begin hport hpc htodo =>
      rw [hpc] at h
      exact h
  | store hpc =>
      rw [hpc] at h
      exact h
  | clearIs hpc =>
      rw [hpc] at h
      exact h
  | issue hpc =>
      rw [System.issueCommand]
      split <;> trivial
  | pollBusy hpc hlimit hci => trivial
  | pollClear hpc hlimit hci => trivial
  | pollLimit hpc hlimit => trivial
  | pollError hpc htfes => exact absurd (hzero _ rfl) (by decide)
  | pollAgain hpc htfes => trivial
  | checkBusy hpc hci => exact absurd (hzero _ rfl) (by decide)
  | checkClear hpc hci => exact hci
  | complete hci hlive =>
      unfold FreeBetween
      dsimp only
      split <;> trivial
  | fail hci hlive => exact h
  | dma harea => exact h

/-- As long as every call succeeds, every call finds the slot free. -/
theorem startsFree_of_zero (run : Run (Step (some p) regs) (System.start mem calls) moves s)
    (hzero : ∀ s code, (s, Event.ret code) ∈ moves → code = 0) : StartsFree moves := by
  have hstart : FreeBetween (System.start mem calls) := rfl
  obtain ⟨_, hall⟩ := run.invariant hstart
    (fun s e s' hinv (hallowed : ∀ code, e = .ret code → code = 0) move =>
      hinv.step hallowed move)
    (by
      intro s e hmem code he
      subst he
      exact hzero s code hmem)
  intro s' st hmem
  obtain ⟨hfree, s'', move⟩ := hall s' _ hmem
  unfold FreeBetween at hfree
  cases move with
  | store hpc =>
      rw [hpc] at hfree
      exact hfree

end Run

/-! ## The returns of a run -/

/-- What a move returns from `ahci_read`, and the state it does so in. -/
def returned : System × Event → List (System × Int)
  | (s, .ret code) => [(s, code)]
  | _ => []

/-- The returns of a run, the first one first. -/
def returns : List (System × Event) → List (System × Int)
  | [] => []
  | move :: earlier => returns earlier ++ returned move

section Returns

variable {moves : List (System × Event)} {s : System} {code : Int}

/-- The returns are the returning moves. -/
theorem mem_returns : (s, code) ∈ returns moves ↔ (s, Event.ret code) ∈ moves := by
  induction moves with
  | nil => exact ⟨fun h => absurd h List.not_mem_nil, fun h => absurd h List.not_mem_nil⟩
  | cons move earlier ih =>
      obtain ⟨s', e⟩ := move
      rw [returns, List.mem_append, ih, List.mem_cons, or_comm]
      refine or_congr_left ?_
      cases e <;> simp [returned]

theorem returns_append (later earlier : List (System × Event)) :
    returns (later ++ earlier) = returns earlier ++ returns later := by
  induction later with
  | nil => exact (List.append_nil _).symm
  | cons move later ih => rw [List.cons_append, returns, returns, ih, List.append_assoc]

/-- Moves that do not return. -/
theorem returns_eq_nil (h : ∀ s e, (s, e) ∈ moves → ∀ code, e ≠ Event.ret code) :
    returns moves = [] := by
  refine List.eq_nil_iff_forall_not_mem.mpr fun r hr => ?_
  exact h r.1 (.ret r.2) (mem_returns.mp hr) r.2 rfl

end Returns

/-! ## A controller that serves every call -/

section Service

variable {p : Fin 32} {regs : PortRegs}

/-- The port registers name the command list of the port. -/
def Lists (p : Fin 32) (regs : PortRegs) : Prop :=
  regs.clb.toNat + 2 ^ 32 * regs.clbu.toNat = (commandList p).toNat

/-- The data buffer is what the command decodes to. -/
theorem dataArea_iff (hlists : Lists p regs) {mem : Bytes} {x : Nat} :
    DataArea regs mem x ↔ (decode mem (commandList p).toNat).addr ≤ x ∧
      x < (decode mem (commandList p).toNat).addr + (decode mem (commandList p).toNat).bytes := by
  unfold Lists at hlists
  simp only [DataArea, hlists, decode, headerTable]
  omega

/-- The first `n` bytes of the sectors. -/
def delivery (disk mem : Bytes) (c : ReadCall) (n : Nat) : Bytes :=
  copyBytes mem c.buffer.toNat (fun k => disk (512 * c.lba.toNat + k)) n

/-- The bytes of a command in flight arrive one by one. -/
theorem run_delivery (disk : Bytes) (hlists : Lists p regs) {c : ReadCall} (hproper : Proper p c)
    {s : System} (hci : s.ci = true) (h : Programmed p c s.mem) {n : Nat}
    (hn : n ≤ 512 * c.count.toNat) :
    Programmed p c (delivery disk s.mem c n) ∧
      ∃ moves, Run (Step (some p) regs) s moves { s with mem := delivery disk s.mem c n } ∧
        ∀ s' e, (s', e) ∈ moves → Serves disk p s' e ∧ ∀ code, e ≠ .ret code := by
  induction n with
  | zero => exact ⟨h, [], Run.start, fun s' e hmem => absurd hmem List.not_mem_nil⟩
  | succ n ih =>
      obtain ⟨hprogrammed, moves, run, hmoves⟩ := ih (by omega)
      have hbuffer : c.Buffer (c.buffer.toNat + n) :=
        ⟨Nat.le_add_right _ n, Nat.add_lt_add_left hn _⟩
      obtain ⟨_, _, haddr, hbytes, _⟩ := hprogrammed.decode hproper.fits
      have hnamed : (decode (delivery disk s.mem c n) (commandList p).toNat).addr ≤
            c.buffer.toNat + n ∧
          c.buffer.toNat + n < (decode (delivery disk s.mem c n) (commandList p).toNat).addr +
            (decode (delivery disk s.mem c n) (commandList p).toNat).bytes := by
        rw [haddr, hbytes]
        exact hbuffer
      have hcommand : ¬ Command p (c.buffer.toNat + n) :=
        fun hcommand => hproper.apart _ hbuffer (Or.inr (Or.inl hcommand))
      have move : Step (some p) regs { s with mem := delivery disk s.mem c n }
          (.dma (c.buffer.toNat + n) (disk (512 * c.lba.toNat + n)))
          { s with mem := delivery disk s.mem c (n + 1) } :=
        Step.dma (Or.inr ⟨hci, (dataArea_iff hlists).mpr hnamed⟩)
      refine ⟨hprogrammed.put hcommand _, _, Run.next run move, fun s' e hmem => ?_⟩
      rcases List.mem_cons.mp hmem with hhere | hearlier
      · cases hhere
        exact ⟨Or.inr ⟨hci, hnamed⟩, fun code => Event.noConfusion⟩
      · exact hmoves s' e hearlier

/-- When all bytes have arrived, the command is done. -/
theorem delivered_transfer (disk : Bytes) {c : ReadCall} (hfits : Encodable c) {mem : Bytes}
    (h : Programmed p c (transfer disk mem c)) : Delivered disk (transfer disk mem c) p := by
  obtain ⟨hlba, _, haddr, hbytes, _⟩ := h.decode hfits
  intro k hk
  rw [hbytes] at hk
  rw [haddr, hlba, transfer_of_mem ⟨Nat.le_add_right _ k, Nat.add_lt_add_left hk _⟩,
    Nat.add_sub_cancel_left]

/-- The contract is about the controller's moves. -/
theorem Event.Prepares.serves {e : Event} (h : e.Prepares) (disk : Bytes) (p : Fin 32)
    (s : System) : Serves disk p s e := by
  cases e <;> trivial

/-- A call does not return before it has issued its command. -/
theorem Event.Prepares.silent {e : Event} (h : e.Prepares) (code : Int) : e ≠ .ret code := by
  rintro rfl
  exact h

/-- The command of the next call is in the slot. -/
def System.issued (s : System) (p : Fin 32) (c : ReadCall) (rest : List ReadCall) : System :=
  { s with
    mem := runStores s.mem (readStores p c), todo := rest, call := s.call + 1, pc := .pollCi 0
    ci := true, tfes := false, failed := false, slot := s.call + 1
    accepted := (s.call + 1) :: s.accepted }

/-- A call that finds the slot free gets as far as polling. -/
theorem run_issued (p : Fin 32) (disk : Bytes) (regs : PortRegs) {c : ReadCall} {s : System}
    {rest : List ReadCall} (hpc : s.pc = .idle) (hci : s.ci = false) (htodo : s.todo = c :: rest) :
    ∃ moves, Run (Step (some p) regs) s moves (s.issued p c rest) ∧ returns moves = [] ∧
      ∀ s₀ e, (s₀, e) ∈ moves → Serves disk p s₀ e := by
  obtain ⟨moves, run, hmoves⟩ := run_to_issue p regs s hpc htodo
  have hissue := Run.next run (Step.issue rfl)
  rw [System.issueCommand, if_neg (by rw [hci]; decide)] at hissue
  refine ⟨_, hissue, ?_, fun s₀ e hmem => ?_⟩
  · have hsilent := returns_eq_nil fun s₀ e hmem => (hmoves s₀ e hmem).2.silent
    rw [returns, hsilent]
    rfl
  · rcases List.mem_cons.mp hmem with hissued | hearlier
    · cases hissued
      trivial
    · exact (hmoves s₀ e hearlier).2.serves disk p s₀

/-- One call, from a free slot to a free slot. -/
theorem run_served (disk : Bytes) (hlists : Lists p regs) {c : ReadCall} (hproper : Proper p c)
    {s : System} {rest : List ReadCall} (hpc : s.pc = .idle) (hci : s.ci = false)
    (htodo : s.todo = c :: rest) :
    ∃ moves s', Run (Step (some p) regs) s moves s' ∧ s'.pc = .idle ∧ s'.ci = false ∧
      s'.todo = rest ∧ s'.call = s.call + 1 ∧ (∃ s₀, returns moves = [(s₀, 0)]) ∧
      ∀ s₀ e, (s₀, e) ∈ moves → Serves disk p s₀ e := by
  obtain ⟨first, hissue, hsilent, hserved⟩ := run_issued p disk regs hpc hci htodo
  obtain ⟨hprogrammed, bytes, hbytes, harrived⟩ := run_delivery disk hlists hproper
    (s := s.issued p c rest) rfl (Programmed.of_stores p c s.mem) (n := 512 * c.count.toNat) le_rfl
  have hdelivered := delivered_transfer disk hproper.fits hprogrammed
  let filled : System :=
    { s.issued p c rest with mem := transfer disk (s.issued p c rest).mem c }
  let done : System := { filled with ci := false, completed := (s.call + 1) :: s.completed }
  have hdone : Run (Step (some p) regs) s _ done :=
    Run.next (hissue.trans hbytes) (Step.complete rfl rfl)
  have hpoll : Run (Step (some p) regs) s _ { done with pc := .check } :=
    Run.next hdone (Step.pollClear rfl (by decide : 0 < 1000000) rfl)
  refine ⟨_, { done with pc := .idle }, Run.next hpoll (Step.checkClear rfl rfl), rfl, rfl, rfl,
    rfl, ⟨{ done with pc := .check }, ?_⟩, fun s₀ e hmem => ?_⟩
  · have hsilent' := returns_eq_nil fun s₀ e hmem => (harrived s₀ e hmem).2
    simp only [returns, returns_append, returned, hsilent, hsilent', List.nil_append]
  · simp only [List.mem_cons, List.mem_append] at hmem
    rcases hmem with hret | hpolled | hcomplete | harrive | hfirst
    · cases hret
      trivial
    · cases hpolled
      trivial
    · cases hcomplete
      exact hdelivered
    · exact (harrived s₀ e harrive).1
    · exact hserved s₀ e hfirst

/-- **Any calls can be served.** -/
theorem exists_served (disk mem : Bytes) (hlists : Lists p regs) {calls : List ReadCall}
    (hproper : ∀ c ∈ calls, Proper p c) :
    ∃ moves s, Run (Step (some p) regs) (System.start mem calls) moves s ∧ s.pc = .idle ∧
      s.call = calls.length ∧ (returns moves).map Prod.snd = calls.map (fun _ => 0) ∧
      ∀ s₀ e, (s₀, e) ∈ moves → Serves disk p s₀ e := by
  suffices hfrom : ∀ s : System, s.pc = .idle → s.ci = false → s.todo = calls →
      ∃ moves s', Run (Step (some p) regs) s moves s' ∧ s'.pc = .idle ∧
        s'.call = s.call + calls.length ∧ (returns moves).map Prod.snd = calls.map (fun _ => 0) ∧
        ∀ s₀ e, (s₀, e) ∈ moves → Serves disk p s₀ e by
    have hstart := hfrom (System.start mem calls) rfl rfl rfl
    rwa [show (System.start mem calls).call = 0 from rfl, Nat.zero_add] at hstart
  induction calls with
  | nil =>
      exact fun s hpc _ _ =>
        ⟨[], s, Run.start, hpc, rfl, rfl, fun s₀ e hmem => absurd hmem List.not_mem_nil⟩
  | cons c rest ih =>
      intro s hpc hci htodo
      obtain ⟨first, middle, hfirst, hpc', hci', htodo', hcall, ⟨s₀, hret⟩, hserved⟩ :=
        run_served disk hlists (hproper c List.mem_cons_self) hpc hci htodo
      obtain ⟨later, last, hlater, hpc'', hcall', hrets, hserved'⟩ :=
        ih (fun c hc => hproper c (List.mem_cons_of_mem _ hc)) middle hpc' hci' htodo'
      refine ⟨_, last, hfirst.trans hlater, hpc'', ?_, ?_, fun s₀ e hmem => ?_⟩
      · rw [hcall', hcall, List.length_cons]
        omega
      · rw [returns_append, hret, List.map_append, hrets]
        rfl
      · rcases List.mem_append.mp hmem with hmem | hmem
        · exact hserved' s₀ e hmem
        · exact hserved s₀ e hmem

/-- All returns are 0. -/
theorem zero_of_served {calls : List ReadCall} {moves : List (System × Event)}
    (h : (returns moves).map Prod.snd = calls.map (fun _ => 0)) :
    ∀ s code, (s, Event.ret code) ∈ moves → code = 0 := by
  intro s code hmem
  have hcode : code ∈ calls.map (fun _ => (0 : Int)) := by
    rw [← h]
    exact List.mem_map.mpr ⟨_, mem_returns.mpr hmem, rfl⟩
  obtain ⟨_, _, hzero⟩ := List.mem_map.mp hcode
  exact hzero.symm

end Service

/-- A disk on which every byte holds its own address, and an empty memory. -/
def ramp : Bytes := fun x => UInt8.ofNat x

theorem lists_portZero : Lists 0 portZero := rfl

/-- The buffer lies apart from the structures of port 0. -/
theorem readZero_proper : Proper 0 readZero := by
  refine ⟨⟨by decide, by decide, by decide⟩, fun x hx hshared => ?_⟩
  have hbuffer : readZero.buffer.toNat = 0x300000 := rfl
  have hlist : (commandList 0).toNat = 0x100000 := rfl
  have htable : (commandTable 0).toNat = 0x110000 := rfl
  have hlo := hx.1
  unfold Shared Command Notices at hshared
  omega

/-! ## Results -/

section Results

variable {disk mem : Bytes} {p : Fin 32} {regs : PortRegs} {moves : List (System × Event)}
  {s : System}

/-- **The driver copies sectors.**  In whatever order the driver and the controller move,
the memory between calls and at every return of 0 is what copying the sectors of
all calls so far makes of it, apart from the shared bytes and the buffers of the calls
that have given up. -/
theorem run_transfers {calls : List ReadCall} (hproper : ∀ c ∈ calls, Proper p c)
    (run : Run (Step (some p) regs) (System.start mem calls) moves s)
    (hserves : ∀ s e, (s, e) ∈ moves → Serves disk p s e) (hfree : StartsFree moves) {x : Nat}
    (hx : ¬ Shared p x) (hspoiled : ¬ Spoiled calls moves x) :
    (s.pc = .idle → s.mem x = transfers disk mem (calls.take s.call) x) ∧
      ∀ s', (s', Event.ret 0) ∈ moves → s'.mem x = transfers disk mem (calls.take s'.call) x := by
  obtain ⟨hlast, hall⟩ := run_followed hproper run hserves hfree hx hspoiled
  refine ⟨hlast.read.1, fun s' hmem => ?_⟩
  obtain ⟨hfollowed, s'', move⟩ := hall s' _ hmem
  cases move with
  | checkClear hpc hci => exact hfollowed.read.2 hpc hci

/-- The same two sectors are read twice, byte for byte. -/
theorem run_transfers_ramp : ∃ moves s, Run (Step (some 0) portZero)
    (System.start (fun _ => 0) [readZero, readZero]) moves s ∧
      s.mem 0x300001 = 1 ∧ s.mem 0x3003ff = 255 ∧ s.mem 0x300400 = 0 := by
  have hproper : ∀ c ∈ [readZero, readZero], Proper 0 c := by
    intro c hc
    have heq : c = readZero := by simpa using hc
    rw [heq]
    exact readZero_proper
  obtain ⟨moves, s, run, hpc, hcall, hrets, hserves⟩ :=
    exists_served ramp (fun _ => 0) lists_portZero hproper
  have hzero := zero_of_served hrets
  have hcopied : ∀ x, ¬ Shared 0 x →
      s.mem x = transfers ramp (fun _ => 0) [readZero, readZero] x := by
    intro x hx
    have hidle := (run_transfers hproper run hserves
      (startsFree_of_zero run hzero) hx fun hspoiled => ?_).1 hpc
    · rw [hcall] at hidle
      exact hidle
    · obtain ⟨s', code, _, _, hmem, hcode, _⟩ := hspoiled
      exact hcode (hzero s' code hmem)
  have hlist : (commandList 0).toNat = 0x100000 := rfl
  have htable : (commandTable 0).toNat = 0x110000 := rfl
  have hfree : ∀ x, 0x300000 ≤ x → ¬ Shared 0 x := by
    intro x hx hshared
    unfold Shared Command Notices at hshared
    omega
  refine ⟨moves, s, run, ?_, ?_, ?_⟩
  · rw [hcopied _ (hfree _ (by decide)), transfers, List.foldl_cons, List.foldl_cons,
      List.foldl_nil, transfer_of_mem ⟨by decide, by decide⟩]
    rfl
  · rw [hcopied _ (hfree _ (by decide)), transfers, List.foldl_cons, List.foldl_cons,
      List.foldl_nil, transfer_of_mem ⟨by decide, by decide⟩]
    rfl
  · have hout : ¬ readZero.Buffer 0x300400 := fun hin => absurd hin.2 (by decide)
    rw [hcopied _ (hfree _ (by decide)), transfers, List.foldl_cons, List.foldl_cons,
      List.foldl_nil, transfer_of_out hout, transfer_of_out hout]

/-- The call that `read_block` makes for a block and a buffer. -/
def blockCall (block : UInt32 × UInt64) : ReadCall := ⟨block.1.toUInt64 * 2, 2, block.2⟩

/-- A block has two sectors. -/
theorem blockCall_lba (block : UInt32 × UInt64) :
    (blockCall block).lba.toNat = 2 * block.1.toNat := by
  have hlt := block.1.toNat_lt
  simp only [blockCall, UInt64.toNat_mul, UInt32.toNat_toUInt64, UInt64.reduceToNat]
  omega

theorem buffer_blockCall {block : UInt32 × UInt64} {x : Nat} (h : (blockCall block).Buffer x) :
    ∃ i, i < 1024 ∧ x = block.2.toNat + i := by
  obtain ⟨hlo, hhi⟩ := h
  exact ⟨x - block.2.toNat, Nat.sub_lt_left_of_lt_add hlo hhi, (Nat.add_sub_cancel' hlo).symm⟩

/-- **A block arrives.**  If no call has failed so far, a call that returns 0 has brought
what the file-system reader expects of a drive with this disk. -/
theorem block_of_zero {blocks : List (UInt32 × UInt64)}
    (hbelow : ∀ block ∈ blocks, block.2.toNat < 2 ^ 32)
    (hapart : ∀ block ∈ blocks, ∀ i < 1024, ¬ Shared p (block.2.toNat + i))
    (run : Run (Step (some p) regs) (System.start mem (blocks.map blockCall)) moves s)
    (hserves : ∀ s e, (s, e) ∈ moves → Serves disk p s e)
    (hzero : ∀ s code, (s, Event.ret code) ∈ moves → code = 0) {s' : System}
    (move : Step (some p) regs s (.ret 0) s') :
    ∃ n block, s.call = n + 1 ∧ blocks[n]? = some block ∧
      ∀ dv : Drive, dv.disk = disk → ∀ t buffer, dv.fate t = true → ∀ i < 1024,
        s.mem (block.2.toNat + i) = readBlock dv t block.1 buffer i := by
  have hproper : ∀ c ∈ blocks.map blockCall, Proper p c := by
    intro c hc
    obtain ⟨block, hblock, rfl⟩ := List.mem_map.mp hc
    have hlba := blockCall_lba block
    have hlt := block.1.toNat_lt
    have hcount : (blockCall block).count.toNat = 2 := rfl
    refine ⟨⟨by omega, by omega, hbelow block hblock⟩, fun x hx => ?_⟩
    obtain ⟨i, hi, rfl⟩ := buffer_blockCall hx
    exact hapart block hblock i hi
  have hclean : ∀ x, ¬ Spoiled (blocks.map blockCall) moves x := by
    intro x hspoiled
    obtain ⟨s, code, _, _, hmem, hcode, _⟩ := hspoiled
    exact hcode (hzero s code hmem)
  have hlow : ¬ Shared p 0 := by
    have hlist := commandList_toNat p
    have htable := commandTable_toNat p
    unfold Shared Command Notices
    omega
  have hfollowed : ∀ {x}, ¬ Shared p x → Followed disk mem p (blocks.map blockCall) x s :=
    fun hx => (run_followed hproper run hserves (startsFree_of_zero run hzero) hx (hclean _)).1
  cases move with
  | checkClear hpc hci =>
      obtain ⟨n, c, hcall, hget⟩ := (hfollowed hlow).current hpc
      have hmapped := hget
      rw [List.getElem?_map] at hmapped
      obtain ⟨block, hblock, rfl⟩ := Option.map_eq_some_iff.mp hmapped
      refine ⟨n, block, hcall, hblock, fun dv hdisk t buffer hfate i hi => ?_⟩
      have hbyte := (hfollowed (hapart block (List.mem_of_getElem? hblock) i hi)).read.2 hpc hci
      have hin : (blockCall block).Buffer (block.2.toNat + i) :=
        ⟨Nat.le_add_right _ i, Nat.add_lt_add_left hi _⟩
      have hoffset : block.2.toNat + i - (blockCall block).buffer.toNat = i :=
        Nat.add_sub_cancel_left _ i
      rw [hbyte, hcall, transfers_take disk mem hget, transfer_of_mem hin, blockCall_lba, hoffset,
        readBlock_of_ok _ _ hfate hi, hdisk, ← Nat.mul_assoc]

/-- **Blocks.**  As long as every `ahci_read` succeeds, every call finds the slot free, and
each `read_block` brings what the file-system reader expects of a drive with this disk. -/
theorem run_readBlocks {blocks : List (UInt32 × UInt64)}
    (hbelow : ∀ block ∈ blocks, block.2.toNat < 2 ^ 32)
    (hapart : ∀ block ∈ blocks, ∀ i < 1024, ¬ Shared p (block.2.toNat + i))
    (run : Run (Step (some p) regs) (System.start mem (blocks.map blockCall)) moves s)
    (hserves : ∀ s e, (s, e) ∈ moves → Serves disk p s e)
    (hzero : ∀ s code, (s, Event.ret code) ∈ moves → code = 0) :
    StartsFree moves ∧ ∀ s', (s', Event.ret 0) ∈ moves →
      ∃ n block, s'.call = n + 1 ∧ blocks[n]? = some block ∧
        ∀ dv : Drive, dv.disk = disk → dv.Sound → ∀ t buffer, ∀ i < 1024,
          s'.mem (block.2.toNat + i) = readBlock dv t block.1 buffer i := by
  refine ⟨startsFree_of_zero run hzero, fun s' hmem => ?_⟩
  obtain ⟨later, earlier, rfl⟩ := List.append_of_mem hmem
  obtain ⟨before, s'', move, _⟩ := run.split
  have hearlier : ∀ {m}, m ∈ earlier → m ∈ later ++ (s', Event.ret 0) :: earlier :=
    fun hm => List.mem_append_right _ (List.mem_cons_of_mem _ hm)
  obtain ⟨n, block, hcall, hblock, hbytes⟩ := block_of_zero hbelow hapart before
    (fun s e hm => hserves s e (hearlier hm)) (fun s code hm => hzero s code (hearlier hm)) move
  exact ⟨n, block, hcall, hblock, fun dv hdisk hsound t buffer i hi =>
    hbytes dv hdisk t buffer (hsound t) i hi⟩

/-- Block 3 is read. -/
theorem run_readBlocks_ramp : ∃ moves s, Run (Step (some 0) portZero)
    (System.start (fun _ => 0) ([(3, 0x300000)].map blockCall)) moves s ∧
      ∃ s', (s', Event.ret 0) ∈ moves ∧ s'.mem 0x300007 = 7 ∧
        ∀ dv : Drive, dv.disk = ramp → dv.Sound → ∀ t buffer, ∀ i < 1024,
          s'.mem (0x300000 + i) = readBlock dv t 3 buffer i := by
  have hapart : ∀ block ∈ [((3, 0x300000) : UInt32 × UInt64)], ∀ i < 1024,
      ¬ Shared 0 (block.2.toNat + i) := by
    intro block hblock i hi
    rw [List.mem_singleton.mp hblock]
    refine readZero_proper.apart _ ⟨Nat.le_add_right _ i, ?_⟩
    exact Nat.add_lt_add_left hi _
  have hproper : ∀ c ∈ [((3, 0x300000) : UInt32 × UInt64)].map blockCall, Proper 0 c := by
    intro c hc
    rw [List.map_singleton, List.mem_singleton] at hc
    rw [hc]
    refine ⟨⟨by decide, by decide, by decide⟩, fun x hx => ?_⟩
    obtain ⟨i, hi, rfl⟩ := buffer_blockCall hx
    exact hapart _ List.mem_cons_self i hi
  obtain ⟨moves, s, run, _, _, hrets, hserves⟩ :=
    exists_served ramp (fun _ => 0) lists_portZero hproper
  obtain ⟨⟨s', code⟩, hret⟩ : ∃ r, r ∈ returns moves := by
    refine List.exists_mem_of_ne_nil _ fun hnil => ?_
    rw [hnil] at hrets
    cases hrets
  have hmem := mem_returns.mp hret
  have hcode := zero_of_served hrets s' code hmem
  subst hcode
  have hbelow : ∀ block ∈ [((3, 0x300000) : UInt32 × UInt64)], block.2.toNat < 2 ^ 32 := by
    intro block hblock
    rw [List.mem_singleton.mp hblock]
    decide
  obtain ⟨n, block, _, hblock, hbytes⟩ := (run_readBlocks hbelow hapart run hserves
    (zero_of_served hrets)).2 s' hmem
  have hthree : block = (3, 0x300000) := by
    have hget := List.mem_of_getElem? hblock
    rwa [List.mem_singleton] at hget
  rw [hthree] at hbytes
  refine ⟨moves, s, run, s', hmem, ?_, hbytes⟩
  have hseven := hbytes ⟨zeroMemory, ramp, fun _ => true⟩ rfl (fun _ => rfl) 0 (fun _ => 0) 7
    (by decide)
  have haddr : (3145728 : UInt64).toNat + 7 = 0x300007 := by decide
  rw [readBlock_of_ok _ _ rfl (by decide), haddr] at hseven
  rw [hseven]
  decide

end Results

end Ahci
