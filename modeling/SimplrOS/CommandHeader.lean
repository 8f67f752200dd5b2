import SimplrOS.AhciEncoding

/-!
# Leftover memory in a command

`port_rebase` names a command list and clears nothing there.  `ahci_read` clears the
command table byte by byte before it fills it, but of the command header it assigns
fields only, each by reading and writing its byte.  So the table never depends on
what was there before, and of the header exactly the six fields that are not
assigned do: `a` and `p`, which share a byte with `cfl` and `w`, and `r`, `b`, `c`
and `pmp` in the next one.
-/

namespace Ahci

open ByteStore

/-! ## The command header -/

/-- `HBA_CMD_HEADER` without its reserved fields. -/
structure HbaCmdHeader where
  cfl : UInt8
  a : Bool
  w : Bool
  p : Bool
  r : Bool
  b : Bool
  c : Bool
  pmp : UInt8
  prdtl : UInt16
  prdbc : UInt32
  ctba : UInt32
  ctbau : UInt32
deriving DecidableEq

/-- The header at `clb`, as the controller takes it apart. -/
def cmdHeader (mem : Bytes) (clb : Nat) : HbaCmdHeader :=
  { cfl := mem clb &&& 0x1F
    a := mem clb &&& 0x20 != 0
    w := mem clb &&& 0x40 != 0
    p := mem clb &&& 0x80 != 0
    r := mem (clb + 1) &&& 0x01 != 0
    b := mem (clb + 1) &&& 0x02 != 0
    c := mem (clb + 1) &&& 0x04 != 0
    pmp := mem (clb + 1) >>> 4
    prdtl := word16 mem (clb + 2)
    prdbc := word32 mem (clb + 4)
    ctba := word32 mem (clb + 8)
    ctbau := word32 mem (clb + 12) }

/-- The header depends on its 16 bytes only. -/
theorem cmdHeader_congr {mem₁ mem₂ : Bytes} {clb : Nat} (h : SameOn mem₁ mem₂ clb 16) :
    cmdHeader mem₁ clb = cmdHeader mem₂ clb := by
  have hword : ∀ i, i + 4 ≤ 16 → SameOn mem₁ mem₂ (clb + i) 4 :=
    fun i hi x hlo hhi => h x (by omega) (by omega)
  have hprdtl : word16 mem₁ (clb + 2) = word16 mem₂ (clb + 2) := by
    have hsame : SameOn mem₁ mem₂ (clb + 2) 2 := fun x hlo hhi => h x (by omega) (by omega)
    rw [word16, word16, leNat_congr hsame]
  simp only [cmdHeader, h clb (by omega) (by omega), h (clb + 1) (by omega) (by omega), hprdtl,
    word32_congr (hword 4 (by omega)), word32_congr (hword 8 (by omega)),
    word32_congr (hword 12 (by omega))]

/-- The header with the fields that `ahci_read` assigns. -/
def HbaCmdHeader.assigned (h : HbaCmdHeader) (ctba : UInt32) : HbaCmdHeader :=
  { h with cfl := 5, w := false, prdtl := 1, prdbc := 0, ctba := ctba, ctbau := 0 }

/-- An ordinary command: not ATAPI, no reset and no BIST. -/
structure HbaCmdHeader.Plain (h : HbaCmdHeader) : Prop where
  atapi : h.a = false
  reset : h.r = false
  bist : h.b = false

/-- Two calls on the port present the same command to the controller, and an
ordinary one. -/
structure SameCommand (port : Fin 32) (o₁ o₂ : Outcome) : Prop where
  issued : o₁.issued = true ∧ o₂.issued = true
  table : SameOn o₁.mem o₂.mem (commandTable port).toNat commandTableSize
  header : cmdHeader o₁.mem (commandList port).toNat = cmdHeader o₂.mem (commandList port).toNat
  plain₁ : (cmdHeader o₁.mem (commandList port).toNat).Plain
  plain₂ : (cmdHeader o₂.mem (commandList port).toNat).Plain

/-- The fields that are never assigned are found clear, or equal where they may be
set. -/
structure SameLeftover (port : Fin 32) (mem₁ mem₂ : Bytes) : Prop where
  plain₁ : (cmdHeader mem₁ (commandList port).toNat).Plain
  plain₂ : (cmdHeader mem₂ (commandList port).toNat).Plain
  p : (cmdHeader mem₁ (commandList port).toNat).p = (cmdHeader mem₂ (commandList port).toNat).p
  c : (cmdHeader mem₁ (commandList port).toNat).c = (cmdHeader mem₂ (commandList port).toNat).c
  pmp : (cmdHeader mem₁ (commandList port).toNat).pmp =
    (cmdHeader mem₂ (commandList port).toNat).pmp

/-! ## Two runs of the same stores -/

/-- One store keeps two memories equal where they are equal. -/
theorem Store.run_congr_at (st : Store) {mem₁ mem₂ : Bytes} {x : Nat} (h : mem₁ x = mem₂ x) :
    st.run mem₁ x = st.run mem₂ x := by
  by_cases hx : x = st.addr
  · subst hx
    rw [st.run_same, st.run_same, h]
  · rw [Store.run, Store.run, put_ne _ _ hx, put_ne _ _ hx, h]

/-- Equal bytes stay equal under the same stores. -/
theorem runStores_congr_at (stores : List Store) {mem₁ mem₂ : Bytes} {x : Nat}
    (h : mem₁ x = mem₂ x) : runStores mem₁ stores x = runStores mem₂ stores x := by
  induction stores generalizing mem₁ mem₂ with
  | nil => exact h
  | cons st rest ih =>
      rw [runStores_cons, runStores_cons]
      exact ih (st.run_congr_at h)

/-- The table is cleared as a whole, so what the later stores keep of it is the same
in any two runs. -/
theorem readStores_table (port : Fin 32) (c : ReadCall) (mem₁ mem₂ : Bytes) :
    SameOn (runStores mem₁ (readStores port c)) (runStores mem₂ (readStores port c))
      (commandTable port).toNat commandTableSize := by
  intro x hlo hhi
  rw [readStores]
  simp only [runStores_append]
  apply runStores_congr_at
  apply runStores_congr_at
  rw [clearStores, runStores_clear, runStores_clear, if_pos ⟨hlo, hhi⟩, if_pos ⟨hlo, hhi⟩]

/-! ## What is left of the header -/

/-- A field of a byte that was stored by reading and writing it. -/
theorem field_of_store (byte keep value field : UInt8) :
    ((byte &&& keep) ||| value) &&& field = (byte &&& (keep &&& field)) ||| (value &&& field) := by
  apply UInt8.toNat_inj.mp
  simp only [UInt8.toNat_and, UInt8.toNat_or, Nat.and_or_distrib_right, Nat.and_assoc]

section Header

variable (mem : Bytes) (clb ctba : Nat)

/-- The stores behind `cfl` and `w` leave the first two bytes alone. -/
theorem headerStores_flags {x : Nat} (hx : x < clb + 2) :
    runStores mem (headerStores clb ctba) x =
      runStores mem ((headerStores clb ctba).take 2) x := by
  have hout : ∀ st ∈ (headerStores clb ctba).drop 2, st.addr ≠ x := by
    have hdrop : (headerStores clb ctba).drop 2 =
        assign (clb + 2) 1 2 ++ assign (clb + 8) ctba 4 ++ assign (clb + 12) 0 4 ++
          assign (clb + 4) 0 4 := rfl
    simp only [hdrop, List.mem_append]
    intro st hst
    rcases hst with ((hprdtl | hctba) | hctbau) | hprdbc
    · have := mem_assign hprdtl
      omega
    · have := mem_assign hctba
      omega
    · have := mem_assign hctbau
      omega
    · have := mem_assign hprdbc
      omega
  calc runStores mem (headerStores clb ctba) x
      = runStores mem ((headerStores clb ctba).take 2 ++ (headerStores clb ctba).drop 2) x := by
        rw [List.take_append_drop]
    _ = runStores mem ((headerStores clb ctba).take 2) x := by
        rw [runStores_append, runStores_of_out hout]

/-- The first byte after the stores: the length of the FIS and no write bit. -/
theorem headerStores_first :
    runStores mem (headerStores clb ctba) clb = ((mem clb &&& ~~~0x1F) ||| 5) &&& ~~~0x40 := by
  rw [headerStores_flags mem clb ctba (by omega)]
  simp [runStores, headerStores, assign, Store.run]

/-- Nothing is stored to the second byte. -/
theorem headerStores_second : runStores mem (headerStores clb ctba) (clb + 1) = mem (clb + 1) := by
  rw [headerStores_flags mem clb ctba (by omega)]
  simp [runStores, headerStores, assign, Store.run, put]

/-- What `field` selects of the first byte: some bits are kept and some are set. -/
theorem headerStores_field {field kept value : UInt8} (hkept : 0xA0 &&& field = kept)
    (hvalue : 5 &&& field = value) :
    runStores mem (headerStores clb ctba) clb &&& field = (mem clb &&& kept) ||| value := by
  have hkeep : ~~~(0x1F : UInt8) &&& (~~~0x40 &&& field) = kept := by
    rw [← UInt8.and_assoc, ← hkept]
    rfl
  have hset : (5 : UInt8) &&& (~~~0x40 &&& field) = value := by
    rw [← UInt8.and_assoc, ← hvalue]
    rfl
  rw [headerStores_first, UInt8.and_assoc, field_of_store, hkeep, hset]

/-- **The header.**  The assigned fields hold what they were assigned, and the others
what they held before. -/
theorem cmdHeader_headerStores (hlt : ctba < 2 ^ 32) :
    cmdHeader (runStores mem (headerStores clb ctba)) clb =
      (cmdHeader mem clb).assigned (UInt32.ofNat ctba) := by
  obtain ⟨hprdtl, hprdbc, hctba, hctbau⟩ := headerStores_words mem clb ctba hlt
  have hcfl : runStores mem (headerStores clb ctba) clb &&& 0x1F = (mem clb &&& 0) ||| 5 :=
    headerStores_field mem clb ctba rfl rfl
  have ha : runStores mem (headerStores clb ctba) clb &&& 0x20 = (mem clb &&& 0x20) ||| 0 :=
    headerStores_field mem clb ctba rfl rfl
  have hw : runStores mem (headerStores clb ctba) clb &&& 0x40 = (mem clb &&& 0) ||| 0 :=
    headerStores_field mem clb ctba rfl rfl
  have hp : runStores mem (headerStores clb ctba) clb &&& 0x80 = (mem clb &&& 0x80) ||| 0 :=
    headerStores_field mem clb ctba rfl rfl
  simp only [cmdHeader, HbaCmdHeader.assigned, hcfl, ha, hw, hp, headerStores_second, hprdtl,
    hprdbc, hctba, hctbau]
  simp

end Header

/-- The command of a read: a fixed part and the leftover fields. -/
theorem cmdHeader_readStores (port : Fin 32) (mem : Bytes) (c : ReadCall) :
    cmdHeader (runStores mem (readStores port c)) (commandList port).toNat =
      (cmdHeader mem (commandList port).toNat).assigned (commandTable port) := by
  have hlist := commandList_toNat port
  have htable := commandTable_toNat port
  have hport := port.isLt
  have hheader := cmdHeader_headerStores mem (commandList port).toNat _ (commandTable port).toNat_lt
  rw [UInt32.ofNat_toNat] at hheader
  rw [← hheader]
  apply cmdHeader_congr
  intro x hlo hhi
  exact readStores_below port mem c (by omega)

/-! ## When a command is the same -/

/-- Assigned headers are equal exactly if the leftover fields are. -/
theorem HbaCmdHeader.assigned_inj {h₁ h₂ : HbaCmdHeader} {ctba : UInt32} :
    h₁.assigned ctba = h₂.assigned ctba ↔
      h₁.a = h₂.a ∧ h₁.p = h₂.p ∧ h₁.r = h₂.r ∧ h₁.b = h₂.b ∧ h₁.c = h₂.c ∧ h₁.pmp = h₂.pmp := by
  simp only [assigned, mk.injEq, true_and, and_true]

/-- **The command and leftover memory.**  Two reads with the same arguments present
the same ordinary command exactly if the fields that are never assigned were left
alike, with the ATAPI, reset and BIST flags clear. -/
theorem ahciRead_sameCommand_iff (p : Fin 32) (port₁ port₂ : Port) (mem₁ mem₂ : Bytes)
    (c : ReadCall) :
    SameCommand p (ahciRead (some p) port₁ mem₁ c) (ahciRead (some p) port₂ mem₂ c) ↔
      SameLeftover p mem₁ mem₂ := by
  obtain ⟨hmem₁, hissued₁⟩ := ahciRead_mem p port₁ mem₁ c
  obtain ⟨hmem₂, hissued₂⟩ := ahciRead_mem p port₂ mem₂ c
  have hheader₁ := cmdHeader_readStores p mem₁ c
  have hheader₂ := cmdHeader_readStores p mem₂ c
  rw [← hmem₁] at hheader₁
  rw [← hmem₂] at hheader₂
  constructor
  · intro hsame
    obtain ⟨_, _, heq, ⟨ha₁, hr₁, hb₁⟩, ⟨ha₂, hr₂, hb₂⟩⟩ := hsame
    rw [hheader₁, hheader₂, HbaCmdHeader.assigned_inj] at heq
    obtain ⟨_, hp, _, _, hc, hpmp⟩ := heq
    rw [hheader₁] at ha₁ hr₁ hb₁
    rw [hheader₂] at ha₂ hr₂ hb₂
    exact ⟨⟨ha₁, hr₁, hb₁⟩, ⟨ha₂, hr₂, hb₂⟩, hp, hc, hpmp⟩
  · intro hleft
    obtain ⟨⟨ha₁, hr₁, hb₁⟩, ⟨ha₂, hr₂, hb₂⟩, hp, hc, hpmp⟩ := hleft
    refine ⟨⟨hissued₁, hissued₂⟩, ?_, ?_, ?_, ?_⟩
    · rw [hmem₁, hmem₂]
      exact readStores_table p c mem₁ mem₂
    · rw [hheader₁, hheader₂, HbaCmdHeader.assigned_inj]
      exact ⟨ha₁.trans ha₂.symm, hp, hr₁.trans hr₂.symm, hb₁.trans hb₂.symm, hc, hpmp⟩
    · rw [hheader₁]
      exact ⟨ha₁, hr₁, hb₁⟩
    · rw [hheader₂]
      exact ⟨ha₂, hr₂, hb₂⟩

/-- Memory that is clear but for one bit at the command list of port 0, which is
where the kernel itself is loaded. -/
def usedMemory : Bytes := put (fun _ => 0) 0x100000 0x20

/-- The bit is taken for the ATAPI flag. -/
theorem usedMemory_not_sameCommand :
    ¬ SameCommand 0 (ahciRead (some 0) latePort (fun _ => 0) ⟨0, 1, 0x300000⟩)
      (ahciRead (some 0) latePort usedMemory ⟨0, 1, 0x300000⟩) := by
  obtain ⟨hmem, _⟩ := ahciRead_mem 0 latePort usedMemory ⟨0, 1, 0x300000⟩
  intro hsame
  have hatapi := hsame.plain₂.atapi
  rw [hmem, cmdHeader_readStores] at hatapi
  exact absurd hatapi (by decide)

end Ahci
