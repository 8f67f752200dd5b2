import SimplrOS.EntryName
import SimplrOS.FreeCounters

/-!
# Where one successful add puts everything

`Allocatable` is what has to hold of the disk before the call: the bitmaps fit
their blocks, the root directory lies in a block marked used, and the lowest free
inode has its record inside the inode table.  The stages of the call then write
to disjoint places, and `AddedFile` says byte for byte what the disk holds after
it.
-/

namespace Fsso

open ByteStore

/-- The lowest free inode is `n`, and its record, the bitmaps and the root
directory are apart. -/
structure Allocatable (disk : Bytes) (n : Nat) : Prop where
  blocks : (sbTotalBlocks disk).toNat ≤ 4096
  inodes : (sbTotalInodes disk).toNat ≤ 512
  reserved : ∀ b, b < fssoFirstDataBlock → bit disk blockBitmap b = true
  root_ge : fssoFirstDataBlock ≤ (rootBlock disk).toNat
  root_lt : rootBlock disk < sbTotalBlocks disk
  root_used : bit disk blockBitmap (rootBlock disk).toNat = true
  pos : 1 ≤ n
  free : bit disk inodeBitmap n = false
  lowest : ∀ j, 1 ≤ j → j < n → bit disk inodeBitmap j = true
  record : (n + 1) * inodeSize ≤ 8 * fssoBlockSize

/-- The blocks `bs` are clear data blocks in increasing order, and every other
clear data block comes after them. -/
structure LowestClear (disk : Bytes) (bs : List Nat) : Prop where
  increasing : bs.Pairwise (· < ·)
  clear : ∀ b ∈ bs, fssoFirstDataBlock ≤ b ∧ bit disk blockBitmap b = false
  lowest : ∀ j, fssoFirstDataBlock ≤ j → bit disk blockBitmap j = false → j ∉ bs →
    ∀ b ∈ bs, b < j

/-- The concatenation of the blocks `bs`. -/
def blockBytes (disk : Bytes) (bs : List Nat) : List UInt8 :=
  bs.flatMap fun b => (List.range fssoBlockSize).map fun j => disk (fssoBlockSize * b + j)

/-- The places a call may write when it stores `size` bytes in the blocks `bs`
and an entry with the name `stored` at `entry`. -/
inductive Written (n : Nat) (size : Nat) (bs : List Nat) (entry : Nat) (stored : List UInt8)
    (x : Nat) : Prop
  | counters (hlo : 20 ≤ x) (hhi : x < 28)
  | bitmaps (hlo : inodeBitmap ≤ x) (hhi : x < inodeTable)
  | record (hlo : inodeAddr n ≤ x) (hhi : x < inodeAddr n + inodeSize)
  | data (i : Nat) (hi : i < bs.length) (hlo : fssoBlockSize * bs[i] ≤ x)
      (hhi : x < fssoBlockSize * bs[i] + min fssoBlockSize (size - fssoBlockSize * i))
  | entry (hlo : entry ≤ x) (hhi : x ≤ entry + 4 + stored.length)

/-- The file of call `c` is inode `n`, its data is in the blocks `bs`, its entry
is root slot `slot`, and nothing else has changed between the two disks. -/
structure AddedFile (disk : Bytes) (n : Nat) (c : AddCall) (disk' : Bytes) (bs : List Nat)
    (slot : Nat) : Prop where
  count : bs.length = (c.size.toNat + 1023) / 1024
  lowest : LowestClear disk bs
  pointers : ∀ i, (hi : i < bs.length) → (pointer disk' n i).toNat = bs[i]
  inodeBits : ∀ i, i < 8 * fssoBlockSize →
    bit disk' inodeBitmap i = (bit disk inodeBitmap i || decide (i = n))
  blockBits : ∀ i, i < 8 * fssoBlockSize →
    bit disk' blockBitmap i = (bit disk blockBitmap i || decide (i ∈ bs))
  data : (blockBytes disk' bs).take c.size.toNat = (List.range c.size.toNat).map c.data
  freeBlocks : sbFreeBlocks disk' = sbFreeBlocks disk - UInt32.ofNat bs.length
  freeInodes : sbFreeInodes disk' = sbFreeInodes disk - 1
  slot_lt : slot < entriesPerBlock
  slot_free : word32 disk (entryAddr (rootBase disk) slot) = 0
  slot_first : ∀ s, s < slot → word32 disk (entryAddr (rootBase disk) s) ≠ 0
  entry : (word32 disk' (entryAddr (rootBase disk) slot)).toNat = n
  name : HoldsString disk' (entryAddr (rootBase disk) slot + 4) (storedName c.name)
  kept : ∀ x, ¬ Written n c.size.toNat bs (entryAddr (rootBase disk) slot) (storedName c.name) x →
    disk' x = disk x

/-! ## The blocks of a file -/

theorem length_blockBytes (disk : Bytes) (bs : List Nat) :
    (blockBytes disk bs).length = 1024 * bs.length := by
  induction bs with
  | nil => rfl
  | cons b bs ih =>
      have hhead : blockBytes disk (b :: bs) =
          (List.range 1024).map (fun j => disk (1024 * b + j)) ++ blockBytes disk bs := rfl
      rw [hhead, List.length_append, ih, List.length_map, List.length_range, List.length_cons]
      omega

theorem getElem_blockBytes (disk : Bytes) (bs : List Nat) {i : Nat}
    (hi : i < (blockBytes disk bs).length) (hk : i / 1024 < bs.length) :
    (blockBytes disk bs)[i] = disk (1024 * bs[i / 1024] + i % 1024) := by
  induction bs generalizing i with
  | nil => simp at hk
  | cons b bs ih =>
      have hhead : blockBytes disk (b :: bs) =
          (List.range 1024).map (fun j => disk (1024 * b + j)) ++ blockBytes disk bs := rfl
      by_cases hfirst : i < 1024
      · have hzero : i / 1024 = 0 := by omega
        have hmod : i % 1024 = i := by omega
        simp [hhead, hfirst, hzero, hmod]
      · have hdiv : i / 1024 = (i - 1024) / 1024 + 1 := by omega
        have hmod : i % 1024 = (i - 1024) % 1024 := by omega
        rw [List.length_cons] at hk
        rw [length_blockBytes, List.length_cons] at hi
        have hrest := ih (i := i - 1024) (by rw [length_blockBytes]; omega) (by omega)
        simp [hhead, List.getElem_append, hfirst, hdiv, hmod, hrest]

/-- The concatenated blocks cut to `size` are the data when each block holds its
part. -/
theorem take_blockBytes {disk data : Bytes} {bs : List Nat} {size : Nat}
    (hcount : bs.length = (size + 1023) / 1024)
    (hdata : ∀ i, (hi : i < size) → (hk : i / 1024 < bs.length) →
      disk (1024 * bs[i / 1024] + i % 1024) = data i) :
    (blockBytes disk bs).take size = (List.range size).map data := by
  apply List.ext_getElem
  · rw [List.length_take, length_blockBytes, List.length_map, List.length_range]
    omega
  · intro i _ hi
    have hsize : i < size := by simpa using hi
    have hlen := length_blockBytes disk bs
    rw [List.getElem_take, getElem_blockBytes disk bs (by omega) (by omega),
      hdata i hsize (by omega), List.getElem_map, List.getElem_range]

/-- What is left of a first-fit list after its first `k` elements lies above
them. -/
theorem lowestClear_take {disk : Bytes} (total k : Nat) :
    LowestClear disk ((clearFrom disk blockBitmap fssoFirstDataBlock
      (total - fssoFirstDataBlock)).take k) := by
  have hfirst : fssoFirstDataBlock = 11 := rfl
  have hsorted : (clearFrom disk blockBitmap fssoFirstDataBlock
      (total - fssoFirstDataBlock)).Pairwise (· < ·) :=
    List.Pairwise.filter _ List.pairwise_lt_range'
  have hmem : ∀ b ∈ (clearFrom disk blockBitmap fssoFirstDataBlock
      (total - fssoFirstDataBlock)).take k,
      fssoFirstDataBlock ≤ b ∧ b < total ∧ bit disk blockBitmap b = false := by
    intro b hb
    obtain ⟨hlo, hhi, hclear⟩ := mem_clearFrom.mp (List.mem_of_mem_take hb)
    exact ⟨hlo, by omega, hclear⟩
  refine ⟨hsorted.sublist (List.take_sublist _ _), fun b hb => ⟨(hmem b hb).1, (hmem b hb).2.2⟩, ?_⟩
  intro j hj hclear hnot b hb
  by_cases hin : j < total
  · have hlisted : j ∈ clearFrom disk blockBitmap fssoFirstDataBlock
        (total - fssoFirstDataBlock) := mem_clearFrom.mpr ⟨hj, by omega, hclear⟩
    rw [← List.take_append_drop k (clearFrom disk blockBitmap fssoFirstDataBlock
      (total - fssoFirstDataBlock))] at hlisted hsorted
    obtain htake | hdrop := List.mem_append.mp hlisted
    · exact absurd htake hnot
    · exact (List.pairwise_append.mp hsorted).2.2 b hb j hdrop
  · have := (hmem b hb).2.1
    omega

/-! ## The exact footprint of each stage -/

/-- The data loop writes only the chunk of each block. -/
theorem writeData_of_unwritten (size : UInt32) (data : Bytes) {x : Nat} {bs : List Nat}
    (i : Nat) (disk : Bytes) (hx : ∀ k, (hk : k < bs.length) → bs[k] < 4194304 ∧
      (x < 1024 * bs[k] ∨ 1024 * bs[k] + (chunkSize size (i + k)).toNat ≤ x)) :
    writeData size data i bs disk x = disk x := by
  induction bs generalizing i disk with
  | nil => rfl
  | cons b bs ih =>
      obtain ⟨hb, hout⟩ := hx 0 (by simp)
      rw [List.getElem_cons_zero] at hb hout
      have hrest : ∀ k, (hk : k < bs.length) → bs[k] < 4194304 ∧
          (x < 1024 * bs[k] ∨ 1024 * bs[k] + (chunkSize size (i + 1 + k)).toNat ≤ x) := by
        intro k hk
        have hnext := hx (k + 1) (by simpa using hk)
        rw [List.getElem_cons_succ] at hnext
        rwa [Nat.add_assoc, Nat.add_comm 1 k]
      rw [writeData, ih (i + 1) _ hrest, copyBytes_of_out _ _ (by
        rw [blockAddr_ofNat hb]
        exact hout)]

section Add

variable {disk : Bytes} {n : Nat} {c : AddCall}

/-- A disk with room has its structures in place. -/
theorem Allocatable.placed (h : Allocatable disk n) (hn : freeInode disk = some n) :
    Placed disk where
  inodes := h.inodes.trans (by decide)
  blocks := h.blocks.trans (by decide)
  root_ge := h.root_ge
  root_lt := h.root_lt
  root_used := h.root_used
  record := by
    intro m hm
    rw [hn] at hm
    cases hm
    have hrecord := h.record
    have haddr := inodeAddr_eq n
    have hge := h.root_ge
    have hlt := UInt32.lt_iff_toNat_lt.mp h.root_lt
    have hblocks := h.blocks
    have hsmall : (rootBlock disk).toNat < 4194304 := by omega
    have hbase : rootBase disk = 1024 * (rootBlock disk).toNat := blockAddr_lt_of_small hsmall
    simp only [inodeSize, fssoBlockSize, fssoFirstDataBlock] at hrecord hge ⊢
    omega

/-- The scan of a call that succeeds settles on the lowest free inode. -/
theorem Allocatable.freeInode_eq (h : Allocatable disk n) {disk' : Bytes}
    (hrun : c.run disk = some (0, disk')) : freeInode disk = some n := by
  obtain ⟨_, hbad, _⟩ | ⟨m, _, hm, _⟩ := fssoAddFile_cases hrun
  · cases hbad
  · obtain ⟨hlo, _, hclear, hbelow⟩ := firstClear_eq_some hm
    have hnm : ¬ n < m := fun hlt => by
      have hused := hbelow n h.pos hlt
      rw [h.free] at hused
      cases hused
    have hmn : ¬ m < n := fun hlt => by
      have hused := h.lowest m hlo hlt
      rw [hclear] at hused
      cases hused
    rw [hm, show m = n by omega]

/-- The data blocks of the filled disk hold the data. -/
theorem Collected.filled_data {bs : List Nat} {data : Bytes} {size : UInt32}
    (hbs : Collected disk bs) (hblocks : (sbTotalBlocks disk).toNat ≤ 4096)
    (hrecord : inodeAddr n + 76 ≤ 11264) (hlen : bs.length ≤ 12) {i : Nat}
    (hi : i < size.toNat) (hk : i / 1024 < bs.length) :
    filledDisk disk n bs data size (1024 * bs[i / 1024] + i % 1024) = data i := by
  have hlo := (hbs.range _ (List.getElem_mem hk)).1
  have hsmall : ∀ b ∈ bs, b < 4194304 := by
    intro b hb
    have := (hbs.range b hb).2
    omega
  have hindex : 1024 * (0 + i / 1024) + i % 1024 = i := by omega
  have hin : 1024 * (0 + i / 1024) + i % 1024 < size.toNat := by omega
  have hpart : _ = data (1024 * (0 + i / 1024) + i % 1024) :=
    writeData_apply hbs.nodup hsmall 0 (markedDisk disk n bs) hk (by omega) hin
  rw [hindex] at hpart
  rw [filledDisk, writeInode_of_out _ _ hlen (by omega)]
  exact hpart

/-- Marking and filling touch only what the call may write. -/
theorem filledDisk_of_unwritten {bs : List Nat} {data : Bytes} {size : UInt32} {entry x : Nat}
    {stored : List UInt8} (hbs : Collected disk bs)
    (hblocks : (sbTotalBlocks disk).toNat ≤ 4096) (hn : n < 8192) (hlen : bs.length ≤ 12)
    (hcount : bs.length = (size.toNat + 1023) / 1024)
    (hx : ¬ Written n size.toNat bs entry stored x) :
    filledDisk disk n bs data size x = disk x := by
  have hmap : inodeBitmap = 1024 := rfl
  have htable : inodeTable = 3072 := rfl
  have hrecordSize : inodeSize = 76 := rfl
  have hbits : x < 1024 ∨ 3072 ≤ x := by
    apply Classical.byContradiction
    intro hin
    exact hx (Written.bitmaps (by omega) (by omega))
  have hrecord : x < inodeAddr n ∨ inodeAddr n + 76 ≤ x := by
    apply Classical.byContradiction
    intro hin
    exact hx (Written.record (by omega) (by omega))
  have hdata : ∀ k, (hk : k < bs.length) → bs[k] < 4194304 ∧
      (x < 1024 * bs[k] ∨ 1024 * bs[k] + (chunkSize size (0 + k)).toNat ≤ x) := by
    intro k hk
    have hrange := (hbs.range _ (List.getElem_mem hk)).2
    have hchunk : (chunkSize size (0 + k)).toNat = _ :=
      chunkSize_eq (show 1024 * (0 + k) < size.toNat by omega)
    refine ⟨by omega, ?_⟩
    apply Classical.byContradiction
    intro hin
    exact hx (Written.data k hk (by simp only [fssoBlockSize]; omega)
      (by simp only [fssoBlockSize]; omega))
  have hmarks : ∀ b ∈ bs, x ≠ 2048 + b / 8 := by
    intro b hb
    have := (hbs.range b hb).2
    omega
  rw [filledDisk, writeInode_of_out _ _ hlen hrecord, writeData_of_unwritten size data 0 _ hdata,
    markedDisk_of_out _ (by omega) hmarks]

end Add

/-! ## The linked disk -/

/-- The disk once the file is linked, with the data blocks `bs` and root slot
`slot`. -/
abbrev linkedDisk (disk : Bytes) (n : Nat) (c : AddCall) (bs : List Nat) (slot : Nat) : Bytes :=
  linkEntry (filledDisk disk n bs c.data c.size) n slot c.name bs.length

/-- A call that has found an inode, its blocks and a slot. -/
structure Linking (disk : Bytes) (n : Nat) (c : AddCall) (bs : List Nat) (slot : Nat) : Prop where
  ready : Allocatable disk n
  scan : freeInode disk = some n
  blocks : Collected disk bs
  lowest : LowestClear disk bs
  fits : bs.length ≤ 12
  count : bs.length = (c.size.toNat + 1023) / 1024
  slot : freeSlot disk = some slot

/-- A successful call gets there. -/
theorem Allocatable.linking {disk disk' : Bytes} {n : Nat} {c : AddCall} (h : Allocatable disk n)
    (hsize : (c.size.toNat + 1023) / 1024 ≤ 12) (hrun : c.run disk = some (0, disk')) :
    ∃ bs slot, Linking disk n c bs slot ∧ disk' = linkedDisk disk n c bs slot := by
  have hfree := h.freeInode_eq hrun
  have hrecord := h.record
  simp only [inodeSize, fssoBlockSize] at hrecord
  have hn8192 : n < 8192 := by omega
  obtain ⟨_, hbad, _⟩ | ⟨m, bs, hm, hchosen, hlen, hexit⟩ := fssoAddFile_cases hrun
  · cases hbad
  · rw [hfree] at hm
    cases hm
    have hbs : Collected disk bs := by
      rw [hchosen]
      exact chosenBlocks_collected hn8192 c.size
    obtain ⟨_, hbad, _⟩ | ⟨_, _, hbad, _⟩ | ⟨slot, hexact, hslot, _, hdisk'⟩ := hexit
    · cases hbad
    · cases hbad
    · have hslots := ((h.placed hfree).filled_root hfree hbs hlen c.data c.size).2
      rw [hslots] at hslot
      refine ⟨bs, slot, ⟨h, hfree, hbs, ?_, hlen, ?_, hslot⟩, hdisk'⟩
      · rw [hchosen, chosenBlocks_of_inode hn8192]
        exact lowestClear_take _ _
      · rw [hexact, blocksNeeded_eq (by omega)]

namespace Linking

variable {disk : Bytes} {n slot : Nat} {c : AddCall} {bs : List Nat}

theorem inode_lt (h : Linking disk n c bs slot) : n < 8192 := by
  have hrecord := h.ready.record
  simp only [inodeSize, fssoBlockSize] at hrecord
  omega

theorem root_ge (h : Linking disk n c bs slot) : 11264 ≤ rootBase disk := by
  have hge := h.ready.root_ge
  have hbase := (h.ready.placed h.scan).rootBase_eq
  simp only [fssoFirstDataBlock] at hge
  omega

theorem filled_rootBase (h : Linking disk n c bs slot) :
    rootBase (filledDisk disk n bs c.data c.size) = rootBase disk :=
  ((h.ready.placed h.scan).filled_root h.scan h.blocks h.fits c.data c.size).1

/-- The chosen slot is the first free one. -/
theorem slot_spec (h : Linking disk n c bs slot) :
    slot < 3 ∧ word32 disk (entryAddr (rootBase disk) slot) = 0 ∧
      ∀ s, s < slot → word32 disk (entryAddr (rootBase disk) s) ≠ 0 := by
  obtain ⟨_, hlt, hfree, hbelow⟩ := findSlot_eq_some h.slot
  rw [Nat.zero_add] at hlt
  exact ⟨hlt, hfree, fun s hs => hbelow s (Nat.zero_le s) hs⟩

/-- Linking leaves the bytes outside the counters and the entry. -/
theorem eq_filled (h : Linking disk n c bs slot) {x : Nat} (hcounters : x < 20 ∨ 28 ≤ x)
    (hout : x < entryAddr (rootBase disk) slot ∨
      entryAddr (rootBase disk) slot + 4 + (storedName c.name).length < x) :
    linkedDisk disk n c bs slot x = filledDisk disk n bs c.data c.size x := by
  rw [← h.filled_rootBase] at hout
  exact linkEntry_of_unwritten _ c.name hcounters hout

/-- In front of the records there are only the marks. -/
theorem filled_eq_marked (h : Linking disk n c bs slot) {x : Nat} (hx : x < 3072) :
    filledDisk disk n bs c.data c.size x = markedDisk disk n bs x := by
  have hblocks := h.ready.blocks
  refine filledDisk_bitmaps c.data c.size h.fits (fun b hb => ?_) hx
  have := h.blocks.range b hb
  omega

/-- Below the inode table only the marking matters. -/
theorem eq_marked (h : Linking disk n c bs slot) {x : Nat} (hlo : 28 ≤ x) (hhi : x < 3072) :
    linkedDisk disk n c bs slot x = markedDisk disk n bs x := by
  have hentry := entryAddr_eq (rootBase disk) slot
  have hroot := h.root_ge
  rw [h.eq_filled (Or.inr hlo) (Or.inl (by omega)), h.filled_eq_marked hhi]

/-- The new record points to the chosen blocks, in order. -/
theorem pointers (h : Linking disk n c bs slot) {i : Nat} (hi : i < bs.length) :
    (pointer (linkedDisk disk n c bs slot) n i).toNat = bs[i] := by
  have haddr := inodeAddr_eq n
  have hrecord := h.ready.record
  have hentry := entryAddr_eq (rootBase disk) slot
  have hroot := h.root_ge
  have hfits := h.fits
  have hblocks := h.ready.blocks
  have hrange := (h.blocks.range _ (List.getElem_mem hi)).2
  simp only [inodeSize, fssoBlockSize] at hrecord
  have hsame : pointer (linkedDisk disk n c bs slot) n i =
      pointer (filledDisk disk n bs c.data c.size) n i :=
    word32_congr fun x _ _ => h.eq_filled (by omega) (by omega)
  rw [hsame, filledDisk, pointer_writeInode, dif_pos hi, ofNat_toNat_of_lt (by omega)]

theorem inodeBits (h : Linking disk n c bs slot) {i : Nat} (hi : i < 8192) :
    bit (linkedDisk disk n c bs slot) inodeBitmap i =
      (bit disk inodeBitmap i || decide (i = n)) := by
  have hmap : inodeBitmap = 1024 := rfl
  have hblockMap : blockBitmap = 2048 := rfl
  rw [bit_congr (h.eq_marked (by omega) (by omega)), ← bit_setBit, markedDisk]
  exact bit_congr (setBits_of_out _ fun b _ => by omega)

theorem blockBits (h : Linking disk n c bs slot) {i : Nat} (hi : i < 8192) :
    bit (linkedDisk disk n c bs slot) blockBitmap i =
      (bit disk blockBitmap i || decide (i ∈ bs)) := by
  have hmap : blockBitmap = 2048 := rfl
  rw [bit_congr (h.eq_marked (by omega) (by omega)), markedDisk, bit_setBits,
    setBit_inode_blockBit disk h.inode_lt]

/-- The directory's block is in use, so the data blocks are others. -/
theorem ne_rootBlock (h : Linking disk n c bs slot) {b : Nat} (hb : b ∈ bs) :
    b ≠ (rootBlock disk).toNat := by
  intro heq
  have hclear := h.blocks.clear b hb
  rw [heq, h.ready.root_used] at hclear
  cases hclear

/-- The chosen blocks hold the caller's bytes. -/
theorem data (h : Linking disk n c bs slot) :
    (blockBytes (linkedDisk disk n c bs slot) bs).take c.size.toNat =
      (List.range c.size.toNat).map c.data := by
  refine take_blockBytes h.count fun i hi hk => ?_
  have haddr := inodeAddr_eq n
  have hrecord := h.ready.record
  have hentry := entryAddr_eq (rootBase disk) slot
  have hbase := (h.ready.placed h.scan).rootBase_eq
  have hslot := h.slot_spec.1
  have hstored := length_storedName_le c.name
  have hmem := List.getElem_mem hk
  have hrange := (h.blocks.range _ hmem).1
  have hne := h.ne_rootBlock hmem
  simp only [inodeSize, fssoBlockSize] at hrecord
  rw [h.eq_filled (by omega) (by omega)]
  exact h.blocks.filled_data h.ready.blocks (by omega) h.fits hi hk

/-- The counters are lowered by the inode and the blocks. -/
theorem counters (h : Linking disk n c bs slot) :
    sbFreeInodes (linkedDisk disk n c bs slot) = sbFreeInodes disk - 1 ∧
      sbFreeBlocks (linkedDisk disk n c bs slot) = sbFreeBlocks disk - UInt32.ofNat bs.length := by
  have hroot := h.root_ge
  have hfilled := h.filled_rootBase
  obtain ⟨hfreeInodes, hfreeBlocks⟩ :=
    linkEntry_counters (filledDisk disk n bs c.data c.size) n slot bs.length c.name (by omega)
  have hkept : ∀ a, a + 4 ≤ 28 →
      word32 (filledDisk disk n bs c.data c.size) a = word32 disk a := by
    intro a ha
    apply word32_congr
    intro x _ _
    rw [h.filled_eq_marked (by omega), markedDisk_head disk n bs (by omega)]
  constructor
  · rw [hfreeInodes, sbFreeInodes, sbFreeInodes, hkept 24 (by omega)]
  · rw [hfreeBlocks, sbFreeBlocks, sbFreeBlocks, hkept 20 (by omega)]

/-- The slot holds the inode and the name. -/
theorem entry (h : Linking disk n c bs slot) :
    (word32 (linkedDisk disk n c bs slot) (entryAddr (rootBase disk) slot)).toNat = n ∧
      HoldsString (linkedDisk disk n c bs slot) (entryAddr (rootBase disk) slot + 4)
        (storedName c.name) := by
  have hrecord := h.ready.record
  have hroot := h.root_ge
  have hfilled := h.filled_rootBase
  simp only [inodeSize, fssoBlockSize] at hrecord
  have hinode := linkEntry_inode (filledDisk disk n bs c.data c.size) n slot bs.length c.name
    (by omega)
  have hname := linkEntry_name (filledDisk disk n bs c.data c.size) n slot bs.length c.name
    (by omega)
  rw [hfilled] at hinode hname
  refine ⟨?_, hname⟩
  rw [hinode, ofNat_toNat_of_lt (by omega)]

/-- Every byte outside the written places is kept. -/
theorem kept (h : Linking disk n c bs slot) {x : Nat}
    (hx : ¬ Written n c.size.toNat bs (entryAddr (rootBase disk) slot) (storedName c.name) x) :
    linkedDisk disk n c bs slot x = disk x := by
  have hcounters : x < 20 ∨ 28 ≤ x := by
    apply Classical.byContradiction
    intro hin
    exact hx (Written.counters (by omega) (by omega))
  have hout : x < entryAddr (rootBase disk) slot ∨
      entryAddr (rootBase disk) slot + 4 + (storedName c.name).length < x := by
    apply Classical.byContradiction
    intro hin
    exact hx (Written.entry (by omega) (by omega))
  rw [h.eq_filled hcounters hout]
  exact filledDisk_of_unwritten h.blocks h.ready.blocks h.inode_lt h.fits h.count hx

end Linking

/-- **Allocation and placement.**  A successful call takes the lowest clear
blocks in order, puts the data into them chunk by chunk, sets exactly their bits
and the bit of the inode, lowers the counters, fills the first free root slot,
and leaves every other byte outside the inode record alone. -/
theorem fssoAddFile_places {disk disk' : Bytes} {n : Nat} {c : AddCall} (h : Allocatable disk n)
    (hsize : (c.size.toNat + 1023) / 1024 ≤ 12) (hrun : c.run disk = some (0, disk')) :
    ∃ bs slot, AddedFile disk n c disk' bs slot := by
  obtain ⟨bs, slot, hlinking, rfl⟩ := h.linking hsize hrun
  obtain ⟨hslot, hslotFree, hslotFirst⟩ := hlinking.slot_spec
  obtain ⟨hfreeInodes, hfreeBlocks⟩ := hlinking.counters
  obtain ⟨hentry, hname⟩ := hlinking.entry
  refine ⟨bs, slot, ?_⟩
  constructor
  case count => exact hlinking.count
  case lowest => exact hlinking.lowest
  case pointers => exact fun i hi => hlinking.pointers hi
  case inodeBits => exact fun i hi => hlinking.inodeBits hi
  case blockBits => exact fun i hi => hlinking.blockBits hi
  case data => exact hlinking.data
  case freeBlocks => exact hfreeBlocks
  case freeInodes => exact hfreeInodes
  case slot_lt => exact hslot
  case slot_free => exact hslotFree
  case slot_first => exact hslotFirst
  case entry => exact hentry
  case name => exact hname
  case kept => exact fun x hx => hlinking.kept hx

/-- The formatted image is ready for its first file. -/
theorem mkfssoFormat_allocatable : Allocatable mkfssoFormat 1 where
  blocks := by decide
  inodes := by decide
  reserved := fun b hb => Layout.of_format.reserved b (Nat.lt_succ_of_lt hb)
  root_ge := by decide
  root_lt := by decide
  root_used := by decide
  pos := by decide
  free := by decide
  lowest := fun j hlo hhi => by omega
  record := by decide

theorem helloCall_places : ∃ bs slot, AddedFile mkfssoFormat 1 helloCall helloDisk bs slot :=
  fssoAddFile_places mkfssoFormat_allocatable (by decide) helloCall_run

end Fsso
