import SimplrOS.ByteStore

/-!
# The disk driver

`ahci.c`: how the port is chosen and rebased, and what `ahci_read` stores into
the command header and the command table before it issues the command.  The
stores are listed byte by byte in the order of the source; a bit field is a store
that keeps the other bits of its byte.
-/

namespace Ahci

open ByteStore

/-- The arguments of one `ahci_read`. -/
structure ReadCall where
  lba : UInt64
  count : UInt32
  buffer : UInt64

/-! ## Port registers -/

/-- The port registers that are written.  `is` and `serr` are kept as plain values, the
last that were stored: in the hardware a 1 that is written there clears the bit. -/
structure PortRegs where
  clb : UInt32
  clbu : UInt32
  fb : UInt32
  fbu : UInt32
  is : UInt32
  cmd : UInt32
  serr : UInt32
  ci : UInt32

/-- The registers `ahci_init` reads while it looks for a disk. -/
structure HbaRegs where
  pi : UInt32
  ssts : Fin 32 → UInt32
  sig : Fin 32 → UInt32

/-- `SATA_SIG_ATA`. -/
abbrev sataSigAta : UInt32 := 0x00000101

/-- `port_rebase`.  The two wait loops write nothing and end when the hardware
has cleared the bits they wait for; `cmd` is what it shows in `PORT_CMD` then. -/
def portRebase (port : Fin 32) (cmd : UInt32) (regs : PortRegs) : PortRegs :=
  let clb : UInt32 := 0x100000 + UInt32.ofNat port * 0x400
  let fb : UInt32 := 0x108000 + UInt32.ofNat port * 0x100
  { regs with
    clb := clb, clbu := 0, fb := fb, fbu := 0, serr := 0xFFFFFFFF, is := 0xFFFFFFFF,
    cmd := cmd ||| 0x10 ||| 0x01 }

/-- The loop body of `ahci_init`: port `i` has a present, active SATA disk. -/
def hasDisk (hba : HbaRegs) (i : Fin 32) : Bool :=
  let ssts := hba.ssts i
  hba.pi &&& (1 <<< UInt32.ofNat i) != 0 && ssts &&& 0x0F == 3 && (ssts >>> 8) &&& 0x0F == 1 &&
    hba.sig i == sataSigAta

/-- `active_port` after the loop of `ahci_init`: the last port with a disk. -/
def activePort (hba : HbaRegs) : Option (Fin 32) :=
  (List.finRange 32).foldl (fun active i => if hasDisk hba i then some i else active) none

/-- `ahci_init`: its result and `active_port`.  Without a controller or a disk it is
`-1`; otherwise the port has been rebased. -/
def ahciInit (hba : Option HbaRegs) : Int × Option (Fin 32) :=
  match hba.bind activePort with
  | none => (-1, none)
  | some port => (0, some port)

/-! ## The stores of a read -/

/-- A store of one byte, which may keep some of the old bits. -/
structure Store where
  addr : Nat
  update : UInt8 → UInt8

/-- The memory after the store. -/
def Store.run (st : Store) (mem : Bytes) : Bytes := put mem st.addr (st.update (mem st.addr))

theorem Store.run_same (st : Store) (mem : Bytes) : st.run mem st.addr = st.update (mem st.addr) :=
  put_same _ _ _

/-- The memory after some stores. -/
def runStores (mem : Bytes) (stores : List Store) : Bytes :=
  stores.foldl (fun mem st => st.run mem) mem

/-- The byte stores of a `k`-byte assignment. -/
def assign (addr value : Nat) : Nat → List Store
  | 0 => []
  | k+1 => ⟨addr, fun _ => UInt8.ofNat value⟩ :: assign (addr + 1) (value / 256) k

/-- `clb` and `ctba` of the active port. -/
def commandList (port : Fin 32) : UInt32 := 0x100000 + UInt32.ofNat port * 0x400

/-- The command table of the port, as `ahci_read` computes it. -/
def commandTable (port : Fin 32) : UInt32 := 0x110000 + UInt32.ofNat port * 0x100

/-- `sizeof(HBA_CMD_TBL)`. -/
abbrev commandTableSize : Nat := 144

/-- The assignments to `cmd_header`. -/
def headerStores (clb ctba : Nat) : List Store :=
  [⟨clb, fun b => (b &&& ~~~(0x1F : UInt8)) ||| 5⟩, ⟨clb, fun b => b &&& ~~~(0x40 : UInt8)⟩] ++
    assign (clb + 2) 1 2 ++ assign (clb + 8) ctba 4 ++ assign (clb + 12) 0 4 ++
    assign (clb + 4) 0 4

/-- The loop that clears the command table. -/
def clearStores (ctba : Nat) : List Store :=
  (List.range commandTableSize).map fun i => ⟨ctba + i, fun _ => 0⟩

/-- The assignments to `prdt_entry[0]`; `dbc` has 22 bits and `i` one. -/
def prdtStores (ctba : Nat) (c : ReadCall) : List Store :=
  let dbc := (c.count * 512 - 1).toNat
  assign (ctba + 128) c.buffer.toUInt32.toNat 4 ++ assign (ctba + 132) 0 4 ++
    assign (ctba + 140) dbc 2 ++
    [⟨ctba + 142, fun b => (b &&& ~~~(0x3F : UInt8)) ||| (UInt8.ofNat (dbc / 65536) &&& 0x3F)⟩,
      ⟨ctba + 143, fun b => b ||| 0x80⟩]

/-- The assignments to the command FIS. -/
def fisStores (ctba : Nat) (c : ReadCall) : List Store :=
  let lba := c.lba.toNat
  [⟨ctba, fun _ => 0x27⟩, ⟨ctba + 1, fun b => b ||| 0x80⟩, ⟨ctba + 2, fun _ => 0x25⟩,
    ⟨ctba + 7, fun _ => 0x40⟩, ⟨ctba + 4, fun _ => UInt8.ofNat lba⟩,
    ⟨ctba + 5, fun _ => UInt8.ofNat (lba / 256)⟩, ⟨ctba + 6, fun _ => UInt8.ofNat (lba / 65536)⟩,
    ⟨ctba + 8, fun _ => UInt8.ofNat (lba / 16777216)⟩,
    ⟨ctba + 9, fun _ => UInt8.ofNat (lba / 4294967296)⟩,
    ⟨ctba + 10, fun _ => UInt8.ofNat (lba / 1099511627776)⟩] ++
    assign (ctba + 12) c.count.toNat 2

/-- Everything `ahci_read` stores before it touches the port registers. -/
def readStores (port : Fin 32) (c : ReadCall) : List Store :=
  let clb := (commandList port).toNat
  let ctba := (commandTable port).toNat
  headerStores clb ctba ++ clearStores ctba ++ prdtStores ctba c ++ fisStores ctba c

/-! ## Where the stores go -/

/-- The address does not wrap. -/
theorem commandList_toNat (port : Fin 32) :
    (commandList port).toNat = 0x100000 + 0x400 * port := by
  have hport := port.isLt
  simp only [commandList, UInt32.toNat_add, UInt32.toNat_mul, UInt32.toNat_ofNat',
    UInt32.reduceToNat]
  omega

/-- The address does not wrap. -/
theorem commandTable_toNat (port : Fin 32) :
    (commandTable port).toNat = 0x110000 + 0x100 * port := by
  have hport := port.isLt
  simp only [commandTable, UInt32.toNat_add, UInt32.toNat_mul, UInt32.toNat_ofNat',
    UInt32.reduceToNat]
  omega

/-- A field is assigned in its own bytes. -/
theorem mem_assign {st : Store} {addr value k : Nat} (h : st ∈ assign addr value k) :
    addr ≤ st.addr ∧ st.addr < addr + k := by
  induction k generalizing addr value with
  | zero => exact absurd h List.not_mem_nil
  | succ k ih =>
      rcases List.mem_cons.mp h with rfl | hrest
      · exact ⟨Nat.le_refl _, Nat.lt_add_of_pos_right (Nat.succ_pos k)⟩
      · have := ih hrest
        omega

/-- The stores to the header stay in it. -/
theorem headerStores_addr {clb ctba : Nat} {st : Store} (h : st ∈ headerStores clb ctba) :
    clb ≤ st.addr ∧ st.addr < clb + 16 := by
  simp only [headerStores, List.mem_append, List.mem_cons, List.not_mem_nil, or_false] at h
  rcases h with ((((rfl | rfl) | hprdtl) | hctba) | hctbau) | hprdbc
  · exact ⟨Nat.le_refl _, Nat.lt_add_of_pos_right (by decide)⟩
  · exact ⟨Nat.le_refl _, Nat.lt_add_of_pos_right (by decide)⟩
  · have := mem_assign hprdtl
    omega
  · have := mem_assign hctba
    omega
  · have := mem_assign hctbau
    omega
  · have := mem_assign hprdbc
    omega

/-- The clearing of the table stays in it. -/
theorem clearStores_addr {ctba : Nat} {st : Store} (h : st ∈ clearStores ctba) :
    ctba ≤ st.addr ∧ st.addr < ctba + 144 := by
  obtain ⟨i, hi, rfl⟩ := List.mem_map.mp h
  have hlt := List.mem_range.mp hi
  exact ⟨Nat.le_add_right _ _, Nat.add_lt_add_left hlt _⟩

/-- The stores to the entry of the table stay in the table. -/
theorem prdtStores_addr {ctba : Nat} {c : ReadCall} {st : Store} (h : st ∈ prdtStores ctba c) :
    ctba ≤ st.addr ∧ st.addr < ctba + 144 := by
  simp only [prdtStores, List.mem_append, List.mem_cons, List.not_mem_nil, or_false] at h
  rcases h with ((hdba | hdbau) | hdbc) | rfl | rfl
  · have := mem_assign hdba
    omega
  · have := mem_assign hdbau
    omega
  · have := mem_assign hdbc
    omega
  · exact ⟨Nat.le_add_right _ _, Nat.add_lt_add_left (by decide) _⟩
  · exact ⟨Nat.le_add_right _ _, Nat.add_lt_add_left (by decide) _⟩

/-- A command FIS has 20 bytes. -/
theorem fisStores_addr {ctba : Nat} {c : ReadCall} {st : Store} (h : st ∈ fisStores ctba c) :
    ctba ≤ st.addr ∧ st.addr < ctba + 20 := by
  simp only [fisStores, List.mem_append, List.mem_cons, List.not_mem_nil, or_false] at h
  rcases h with hfield | hcount
  · have hfields : ∃ k, k < 20 ∧ st.addr = ctba + k := by
      rcases hfield with rfl | rfl | rfl | rfl | rfl | rfl | rfl | rfl | rfl | rfl
      · exact ⟨0, by decide, rfl⟩
      · exact ⟨1, by decide, rfl⟩
      · exact ⟨2, by decide, rfl⟩
      · exact ⟨7, by decide, rfl⟩
      · exact ⟨4, by decide, rfl⟩
      · exact ⟨5, by decide, rfl⟩
      · exact ⟨6, by decide, rfl⟩
      · exact ⟨8, by decide, rfl⟩
      · exact ⟨9, by decide, rfl⟩
      · exact ⟨10, by decide, rfl⟩
    obtain ⟨k, hk, haddr⟩ := hfields
    omega
  · have := mem_assign hcount
    omega

/-- Every store goes to the 16 bytes of the command header that are assigned or
to the 144 bytes of the command table. -/
theorem readStores_addr {port : Fin 32} {c : ReadCall} {st : Store}
    (h : st ∈ readStores port c) :
    ((commandList port).toNat ≤ st.addr ∧ st.addr < (commandList port).toNat + 16) ∨
      ((commandTable port).toNat ≤ st.addr ∧ st.addr < (commandTable port).toNat + 144) := by
  simp only [readStores, List.mem_append] at h
  rcases h with ((hheader | hclear) | hprdt) | hfis
  · exact Or.inl (headerStores_addr hheader)
  · exact Or.inr (clearStores_addr hclear)
  · exact Or.inr (prdtStores_addr hprdt)
  · have := fisStores_addr hfis
    exact Or.inr ⟨this.1, by omega⟩

/-- Every call makes a store. -/
theorem readStores_ne_nil (port : Fin 32) (c : ReadCall) : readStores port c ≠ [] := by
  simp [readStores, headerStores]

end Ahci
