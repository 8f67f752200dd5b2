import SimplrOS.AhciOutcome

/-!
# What a command says

`ahci_read` splits a request over the bit fields of the command header, the PRDT
entry and the command FIS.  Each field is cut to its width without a check, so
the controller is told the request exactly if every part fits: the address into
48 bits, the bytes into the 22 bits of `dbc`, and the buffer into the 32 bits of
`dba`, whose upper half is always zero.
-/

namespace Ahci

open ByteStore

/-! ## The controller's reading -/

/-- A transfer as the controller decodes it. -/
structure Transfer where
  lba : Nat
  sectors : Nat
  addr : Nat
  bytes : Nat

/-- `lba0` to `lba5` of the FIS at `fis`. -/
def fisLba (mem : Bytes) (fis : Nat) : Nat :=
  (mem (fis + 4)).toNat + 2 ^ 8 * (mem (fis + 5)).toNat + 2 ^ 16 * (mem (fis + 6)).toNat +
    2 ^ 24 * (mem (fis + 8)).toNat + 2 ^ 32 * (mem (fis + 9)).toNat +
    2 ^ 40 * (mem (fis + 10)).toNat

/-- The command table that the command header names. -/
def headerTable (mem : Bytes) (header : Nat) : Nat :=
  (word32 mem (header + 8)).toNat + 2 ^ 32 * (word32 mem (header + 12)).toNat

/-- The transfer that the command header describes: a sector count of 0 means
65536, and `dbc` is one less than the number of bytes. -/
def decode (mem : Bytes) (header : Nat) : Transfer :=
  let table := headerTable mem header
  let count := (word16 mem (table + 12)).toNat
  { lba := fisLba mem table
    sectors := if count = 0 then 65536 else count
    addr := (word32 mem (table + 128)).toNat + 2 ^ 32 * (word32 mem (table + 132)).toNat
    bytes := (word32 mem (table + 140)).toNat % 2 ^ 22 + 1 }

/-- The transfer is the one asked for, and its two byte counts agree. -/
structure Transfer.Exact (t : Transfer) (c : ReadCall) : Prop where
  lba : t.lba = c.lba.toNat
  sectors : t.sectors = c.count.toNat
  addr : t.addr = c.buffer.toNat
  bytes : t.bytes = 512 * c.count.toNat
  agree : 512 * t.sectors = t.bytes

/-- The call is refused without issuing anything, or what it issues is exact. -/
def RefusedOrExact (activePort : Option (Fin 32)) (o : Outcome) (c : ReadCall) : Prop :=
  (o.ret < 0 ∧ o.issued = false) ∨
    ∃ p, activePort = some p ∧ (decode o.mem (commandList p).toNat).Exact c

/-- The request fits the fields. -/
structure Encodable (c : ReadCall) : Prop where
  lba : c.lba.toNat < 2 ^ 48
  count : 1 ≤ c.count.toNat ∧ c.count.toNat ≤ 8192
  buffer : c.buffer.toNat < 2 ^ 32

/-! ## Memory after a list of stores -/

theorem runStores_append (mem : Bytes) (stores more : List Store) :
    runStores mem (stores ++ more) = runStores (runStores mem stores) more := List.foldl_append

theorem runStores_cons (mem : Bytes) (st : Store) (rest : List Store) :
    runStores mem (st :: rest) = runStores (st.run mem) rest := rfl

/-- Stores leave all other bytes alone. -/
theorem runStores_of_out {mem : Bytes} {stores : List Store} {x : Nat}
    (h : ∀ st ∈ stores, st.addr ≠ x) : runStores mem stores x = mem x := by
  induction stores generalizing mem with
  | nil => rfl
  | cons st rest ih =>
      rw [runStores_cons, ih fun st' hst' => h st' (List.mem_cons_of_mem _ hst')]
      exact put_ne _ _ (Ne.symm (h st List.mem_cons_self))

/-- An assignment reads back as the value cut to its width. -/
theorem leNat_assign (mem : Bytes) (addr value k : Nat) :
    leNat (runStores mem (assign addr value k)) addr k = value % 256 ^ k := by
  induction k generalizing mem addr value with
  | zero => simp [leNat, Nat.mod_one]
  | succ k ih =>
      have hfirst : runStores mem (assign addr value (k + 1)) addr = UInt8.ofNat value := by
        rw [assign, runStores_cons, runStores_of_out fun st hst => ?_, Store.run_same]
        have := mem_assign hst
        omega
      have hsplit : value % 256 ^ (k + 1) = value % 256 + 256 * (value / 256 % 256 ^ k) := by
        rw [Nat.pow_succ', Nat.mod_mul]
      rw [leNat, hfirst, assign, runStores_cons, ih, UInt8.toNat_ofNat', hsplit]

/-- A number next to all stores is kept. -/
theorem leNat_of_out {mem : Bytes} {stores : List Store} {a k : Nat}
    (h : ∀ st ∈ stores, st.addr < a ∨ a + k ≤ st.addr) :
    leNat (runStores mem stores) a k = leNat mem a k := by
  apply leNat_ext
  intro i hi
  apply runStores_of_out
  intro st hst
  have := h st hst
  omega

/-- A number next to an assignment is kept. -/
theorem leNat_assign_of_out {mem : Bytes} {addr value w a k : Nat}
    (h : addr + w ≤ a ∨ a + k ≤ addr) :
    leNat (runStores mem (assign addr value w)) a k = leNat mem a k := by
  apply leNat_of_out
  intro st hst
  have := mem_assign hst
  omega

/-- The loop that clears the table, over its first bytes. -/
theorem runStores_clear (mem : Bytes) (ctba n x : Nat) :
    runStores mem ((List.range n).map fun i => ⟨ctba + i, fun _ => 0⟩) x =
      if ctba ≤ x ∧ x < ctba + n then 0 else mem x := by
  induction n with
  | zero => rw [if_neg (by omega)]; rfl
  | succ n ih =>
      rw [List.range_succ, List.map_append, runStores_append]
      by_cases hx : x = ctba + n
      · subst hx
        rw [if_pos (by omega)]
        exact Store.run_same ⟨ctba + n, fun _ => 0⟩ _
      · have hrest : (ctba ≤ x ∧ x < ctba + (n + 1)) ↔ (ctba ≤ x ∧ x < ctba + n) := by omega
        rw [runStores_of_out (by simpa using Ne.symm hx), ih]
        simp only [hrest]

section Fields

variable (mem : Bytes) (t : Nat) (c : ReadCall)

/-- The FIS block. -/
theorem fisLba_fisStores : fisLba (runStores mem (fisStores t c)) t = c.lba.toNat % 2 ^ 48 := by
  have hbytes : fisLba (runStores mem (fisStores t c)) t =
      c.lba.toNat % 256 + 2 ^ 8 * (c.lba.toNat / 256 % 256) +
        2 ^ 16 * (c.lba.toNat / 65536 % 256) + 2 ^ 24 * (c.lba.toNat / 16777216 % 256) +
        2 ^ 32 * (c.lba.toNat / 4294967296 % 256) +
        2 ^ 40 * (c.lba.toNat / 1099511627776 % 256) := by
    simp [fisLba, runStores, fisStores, assign, Store.run, put]
  rw [hbytes]
  omega

/-- The FIS holds the low 16 bits of the sector count. -/
theorem count_fisStores :
    (word16 (runStores mem (fisStores t c)) (t + 12)).toNat = c.count.toNat % 65536 := by
  have hcount := leNat_assign (runStores mem ((fisStores t c).take 10)) (t + 12) c.count.toNat 2
  have hsplit : fisStores t c = (fisStores t c).take 10 ++ assign (t + 12) c.count.toNat 2 := rfl
  rw [hsplit, runStores_append, word16, hcount, UInt16.toNat_ofNat']
  omega

/-- The PRDT block. -/
theorem addr_prdtStores :
    (word32 (runStores mem (prdtStores t c)) (t + 128)).toNat +
      2 ^ 32 * (word32 (runStores mem (prdtStores t c)) (t + 132)).toNat =
        c.buffer.toNat % 2 ^ 32 := by
  have hlast : ∀ (m : Bytes) (a : Nat) (u v : UInt8 → UInt8), a + 4 ≤ t + 142 →
      leNat (runStores m [⟨t + 142, u⟩, ⟨t + 143, v⟩]) a 4 = leNat m a 4 := by
    intro m a u v ha
    apply leNat_of_out
    simp only [List.mem_cons, List.not_mem_nil, or_false]
    intro st hcase
    rcases hcase with rfl | rfl
    · exact Or.inr ha
    · exact Or.inr (Nat.le_succ_of_le ha)
  have hdba : leNat (runStores mem (prdtStores t c)) (t + 128) 4 = c.buffer.toNat % 2 ^ 32 := by
    rw [prdtStores]
    simp only [runStores_append]
    rw [hlast _ _ _ _ (by omega), leNat_assign_of_out (by omega), leNat_assign_of_out (by omega),
      leNat_assign, UInt64.toNat_toUInt32]
    omega
  have hdbau : leNat (runStores mem (prdtStores t c)) (t + 132) 4 = 0 := by
    rw [prdtStores]
    simp only [runStores_append]
    rw [hlast _ _ _ _ (by omega), leNat_assign_of_out (by omega), leNat_assign]
    rfl
  rw [word32, word32, hdba, hdbau]
  simp

/-- `dbc` holds the low 22 bits of the byte count less one. -/
theorem bytes_prdtStores (hclear : mem (t + 142) = 0) :
    (word32 (runStores mem (prdtStores t c)) (t + 140)).toNat % 2 ^ 22 =
      (c.count * 512 - 1).toNat % 2 ^ 22 := by
  obtain ⟨dbc, hdbc⟩ : ∃ dbc, (c.count * 512 - 1).toNat = dbc := ⟨_, rfl⟩
  have h140 : runStores mem (prdtStores t c) (t + 140) = UInt8.ofNat dbc := by
    simp [runStores, prdtStores, hdbc, assign, Store.run, put]
  have h141 : runStores mem (prdtStores t c) (t + 141) = UInt8.ofNat (dbc / 256) := by
    simp [runStores, prdtStores, hdbc, assign, Store.run, put]
  have h142 : runStores mem (prdtStores t c) (t + 142) = UInt8.ofNat (dbc / 65536) &&& 0x3F := by
    simp [runStores, prdtStores, hdbc, assign, Store.run, put, hclear]
  have hlow : (UInt8.ofNat (dbc / 65536) &&& 0x3F).toNat = dbc / 65536 % 64 := by
    rw [UInt8.toNat_and, UInt8.toNat_ofNat']
    have hmask : (0x3F : UInt8).toNat = 2 ^ 6 - 1 := rfl
    rw [hmask, Nat.and_two_pow_sub_one_eq_mod]
    omega
  rw [hdbc, word32, UInt32.toNat_ofNat']
  simp only [leNat, h140, h141, h142, hlow, UInt8.toNat_ofNat', Nat.add_assoc, Nat.reduceAdd]
  omega

end Fields

/-! ## What is programmed -/

/-- The four assignments behind the flags of the header, each next to the others. -/
theorem headerStores_words (mem : Bytes) (clb ctba : Nat) (hctba : ctba < 2 ^ 32) :
    word16 (runStores mem (headerStores clb ctba)) (clb + 2) = 1 ∧
      word32 (runStores mem (headerStores clb ctba)) (clb + 4) = 0 ∧
      word32 (runStores mem (headerStores clb ctba)) (clb + 8) = UInt32.ofNat ctba ∧
      word32 (runStores mem (headerStores clb ctba)) (clb + 12) = 0 := by
  rw [headerStores]
  simp only [runStores_append, word16, word32]
  refine ⟨?_, ?_, ?_, ?_⟩
  · rw [leNat_assign_of_out (by omega), leNat_assign_of_out (by omega),
      leNat_assign_of_out (by omega), leNat_assign]
    rfl
  · rw [leNat_assign]
    rfl
  · rw [leNat_assign_of_out (by omega), leNat_assign_of_out (by omega), leNat_assign]
    congr 1
    omega
  · rw [leNat_assign_of_out (by omega), leNat_assign]
    rfl

/-- The header names the command table of the port. -/
theorem headerTable_headerStores (mem : Bytes) (clb ctba : Nat) (hctba : ctba < 2 ^ 32) :
    headerTable (runStores mem (headerStores clb ctba)) clb = ctba := by
  obtain ⟨_, _, htable, hupper⟩ := headerStores_words mem clb ctba hctba
  rw [headerTable, htable, hupper, UInt32.toNat_ofNat', Nat.mod_eq_of_lt hctba]
  rfl

/-- Below the command table a read stores the command header only. -/
theorem readStores_below (p : Fin 32) (mem : Bytes) (c : ReadCall) {x : Nat}
    (hx : x < (commandTable p).toNat) :
    runStores mem (readStores p c) x =
      runStores mem (headerStores (commandList p).toNat (commandTable p).toNat) x := by
  have hfis : ∀ st ∈ fisStores (commandTable p).toNat c, st.addr ≠ x := by
    intro st hst
    have := fisStores_addr hst
    omega
  have hprdt : ∀ st ∈ prdtStores (commandTable p).toNat c, st.addr ≠ x := by
    intro st hst
    have := prdtStores_addr hst
    omega
  have hclear : ∀ st ∈ clearStores (commandTable p).toNat, st.addr ≠ x := by
    intro st hst
    have := clearStores_addr hst
    omega
  rw [readStores, runStores_append, runStores_append, runStores_append, runStores_of_out hfis,
    runStores_of_out hprdt, runStores_of_out hclear]

/-- **The encoding.**  Every part of the request arrives, cut to its field. -/
theorem decode_readStores (p : Fin 32) (mem : Bytes) (c : ReadCall) :
    decode (runStores mem (readStores p c)) (commandList p).toNat =
      { lba := c.lba.toNat % 2 ^ 48
        sectors := if c.count.toNat % 65536 = 0 then 65536 else c.count.toNat % 65536
        addr := c.buffer.toNat % 2 ^ 32
        bytes := (c.count * 512 - 1).toNat % 2 ^ 22 + 1 } := by
  have hlist := commandList_toNat p
  have htable := commandTable_toNat p
  have hport := p.isLt
  obtain ⟨clb, hclb⟩ : ∃ clb, (commandList p).toNat = clb := ⟨_, rfl⟩
  obtain ⟨t, ht⟩ : ∃ t, (commandTable p).toNat = t := ⟨_, rfl⟩
  rw [hclb] at hlist
  rw [ht] at htable
  -- the memory after the header, after clearing and after the PRDT entry
  let headed := runStores mem (headerStores clb t)
  let cleared := runStores headed (clearStores t)
  let listed := runStores cleared (prdtStores t c)
  have hmem : runStores mem (readStores p c) = runStores listed (fisStores t c) := by
    rw [readStores, runStores_append, runStores_append, runStores_append, hclb, ht]
  have hkept : ∀ x, x < clb + 16 → runStores listed (fisStores t c) x = headed x := by
    intro x hx
    have hbelow := readStores_below p mem c (x := x) (by omega)
    rw [hmem, hclb, ht] at hbelow
    exact hbelow
  have hheader : headerTable (runStores listed (fisStores t c)) clb = t := by
    have hlow : word32 (runStores listed (fisStores t c)) (clb + 8) = word32 headed (clb + 8) :=
      word32_congr fun x _ hhi => hkept x (by omega)
    have hhigh : word32 (runStores listed (fisStores t c)) (clb + 12) = word32 headed (clb + 12) :=
      word32_congr fun x _ hhi => hkept x (by omega)
    rw [headerTable, hlow, hhigh]
    exact headerTable_headerStores mem clb t (by omega)
  have hentry : ∀ a, t + 128 ≤ a →
      word32 (runStores listed (fisStores t c)) a = word32 listed a := by
    intro a ha
    refine word32_congr fun x hlo _ => runStores_of_out fun st hst => ?_
    have := fisStores_addr hst
    omega
  have hzero : cleared (t + 142) = 0 := by
    have hclear := runStores_clear headed t 144 (t + 142)
    rw [if_pos ⟨by omega, by omega⟩] at hclear
    exact hclear
  rw [hmem, hclb]
  simp only [decode, hheader, fisLba_fisStores, count_fisStores, hentry _ (Nat.le_refl _),
    hentry (t + 132) (by omega), hentry (t + 140) (by omega)]
  rw [addr_prdtStores, bytes_prdtStores cleared t c hzero]

/-! ## Exact requests -/

/-- The fields hold the request exactly if it fits them. -/
theorem exact_iff {t : Transfer} {c : ReadCall} (ht : t =
      { lba := c.lba.toNat % 2 ^ 48
        sectors := if c.count.toNat % 65536 = 0 then 65536 else c.count.toNat % 65536
        addr := c.buffer.toNat % 2 ^ 32
        bytes := (c.count * 512 - 1).toNat % 2 ^ 22 + 1 }) :
    t.Exact c ↔ Encodable c := by
  subst ht
  have hcount := c.count.toNat_lt
  have hbytes : (c.count * 512 - 1).toNat =
      (c.count.toNat * 512 % 2 ^ 32 + (2 ^ 32 - 1)) % 2 ^ 32 := by
    rw [UInt32.toNat_sub, UInt32.toNat_mul]
    simp only [UInt32.reduceToNat]
    omega
  constructor
  · intro hboth
    obtain ⟨hlba, _, haddr, hlen, _⟩ := hboth
    dsimp only at hlba haddr hlen
    rw [hbytes] at hlen
    exact ⟨by omega, ⟨by omega, by omega⟩, by omega⟩
  · intro hboth
    obtain ⟨hlba, ⟨hpos, hmax⟩, hbuffer⟩ := hboth
    have hsectors : c.count.toNat % 65536 = c.count.toNat := Nat.mod_eq_of_lt (by omega)
    refine ⟨by dsimp only; omega, ?_, by dsimp only; omega, ?_, ?_⟩
    · dsimp only
      rw [hsectors, if_neg (by omega)]
    · dsimp only
      rw [hbytes]
      omega
    · dsimp only
      rw [hsectors, if_neg (by omega), hbytes]
      omega

/-- What is issued is what was programmed. -/
theorem ahciRead_mem (p : Fin 32) (port : Port) (mem : Bytes) (c : ReadCall) :
    (ahciRead (some p) port mem c).mem = runStores mem (readStores p c) ∧
      (ahciRead (some p) port mem c).issued = true := by
  simp only [ahciRead]
  split <;> exact ⟨rfl, rfl⟩

/-- **The encoding of a request.**  `ahci_read` refuses a request or encodes it
exactly, if and only if there is no disk or the request fits the fields. -/
theorem refusedOrExact_iff (activePort : Option (Fin 32)) (port : Port) (mem : Bytes)
    (c : ReadCall) :
    RefusedOrExact activePort (ahciRead activePort port mem c) c ↔
      activePort = none ∨ Encodable c := by
  cases activePort with
  | none => exact iff_of_true (Or.inl ⟨by simp [ahciRead], rfl⟩) (Or.inl rfl)
  | some p =>
      obtain ⟨hmem, hissued⟩ := ahciRead_mem p port mem c
      have hexact := exact_iff (decode_readStores p mem c)
      constructor
      · intro hcase
        rcases hcase with ⟨_, hnot⟩ | ⟨p', hp, hdecoded⟩
        · rw [hissued] at hnot
          cases hnot
        · cases hp
          rw [hmem] at hdecoded
          exact Or.inr (hexact.mp hdecoded)
      · intro hcase
        rcases hcase with hnone | hfits
        · cases hnone
        · exact Or.inr ⟨p, rfl, by rw [hmem]; exact hexact.mpr hfits⟩

/-- Reading 8193 sectors from the start of the disk. -/
def longRead : ReadCall := ⟨0, 8193, 0x300000⟩

/-- The command is issued with a PRDT entry of 512 bytes for 8193 sectors. -/
theorem longRead_not_exact :
    ¬ RefusedOrExact (some 0) (ahciRead (some 0) latePort (fun _ => 0) longRead) longRead := by
  obtain ⟨hmem, hissued⟩ := ahciRead_mem 0 latePort (fun _ => 0) longRead
  intro hcase
  rcases hcase with ⟨_, hnot⟩ | ⟨p, hp, hdecoded⟩
  · rw [hissued] at hnot
    cases hnot
  · cases hp
    have hbytes := hdecoded.bytes
    rw [hmem, decode_readStores] at hbytes
    exact absurd hbytes (by decide)

end Ahci
