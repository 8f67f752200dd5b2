import SimplrOS.RoundTrip

/-!
# The free counters and the bitmaps

`free_blocks` and `free_inodes` are lowered on the success exit of
`fsso_add_file` only, while the bitmap bits are set before the two other exits
are reached, and the format sets the bit of the root directory's block without
counting it.

For a single call the disk is arbitrary, apart from `Placed`: the bitmaps have a
block each, and the root directory is where the record and the data of the new
file do not reach.
-/

namespace Fsso

open ByteStore

/-- The clear bits of the two bitmaps, as far as the superblock counts them. -/
def clearInodes (disk : Bytes) : Nat := clearCount disk inodeBitmap (sbTotalInodes disk).toNat

/-- The number of clear bits of the block bitmap. -/
def clearBlocks (disk : Bytes) : Nat := clearCount disk blockBitmap (sbTotalBlocks disk).toNat

/-- Both counters changed by exactly the change in the number of clear bits. -/
structure CountersFollow (disk disk' : Bytes) : Prop where
  inodes : ((sbFreeInodes disk').toNat : Int) - (sbFreeInodes disk).toNat =
    (clearInodes disk' : Int) - clearInodes disk
  blocks : ((sbFreeBlocks disk').toNat : Int) - (sbFreeBlocks disk).toNat =
    (clearBlocks disk' : Int) - clearBlocks disk

/-- The root directory's block, as the root inode has it. -/
def rootBlock (disk : Bytes) : UInt32 := pointer disk 0 0

/-- Each bitmap fits its block, the root directory is a data block in use, and
the next inode record ends below it. -/
structure Placed (disk : Bytes) : Prop where
  inodes : (sbTotalInodes disk).toNat ≤ 8192
  blocks : (sbTotalBlocks disk).toNat ≤ 8192
  root_ge : 11 ≤ (rootBlock disk).toNat
  root_lt : rootBlock disk < sbTotalBlocks disk
  root_used : bit disk blockBitmap (rootBlock disk).toNat = true
  record : ∀ n, freeInode disk = some n → inodeAddr n + inodeSize ≤ rootBase disk

/-- Enough clear blocks, a free slot in the root directory, and counters that
can be lowered. -/
structure RoomFor (disk : Bytes) (size : UInt32) : Prop where
  blocks : blocksNeeded size ≤ (clearFrom disk blockBitmap fssoFirstDataBlock
    ((sbTotalBlocks disk).toNat - fssoFirstDataBlock)).length
  slot : freeSlot disk ≠ none
  inodeCounter : 1 ≤ (sbFreeInodes disk).toNat
  blockCounter : blocksNeeded size ≤ (sbFreeBlocks disk).toNat

/-! ## Images of a run -/

/-- With exactly the bits `0, …, m` set, the others are clear. -/
theorem clearCount_of_prefix {disk : Bytes} {base n m : Nat}
    (h : ∀ i, i < n → bit disk base i = decide (i ≤ m)) :
    clearCount disk base n = n - (m + 1) := by
  have hsame : clearBits disk base n = Finset.range n \ Finset.range (m + 1) := by
    ext i
    simp only [mem_clearBits, Finset.mem_sdiff, Finset.mem_range]
    constructor
    · intro hboth
      obtain ⟨hi, hclear⟩ := hboth
      rw [h i hi] at hclear
      exact ⟨hi, fun hlt => by simp only [decide_eq_false_iff_not] at hclear; omega⟩
    · intro hboth
      obtain ⟨hi, hge⟩ := hboth
      exact ⟨hi, by rw [h i hi]; exact decide_eq_false (by omega)⟩
  by_cases hle : m + 1 ≤ n
  · rw [clearCount, hsame, Finset.card_sdiff_of_subset (Finset.range_subset_range.mpr hle),
      Finset.card_range, Finset.card_range]
  · have hempty : Finset.range n \ Finset.range (m + 1) = ∅ :=
      Finset.sdiff_eq_empty_iff_subset.mpr (Finset.range_subset_range.mpr (by omega))
    rw [clearCount, hsame, hempty, Finset.card_empty]
    omega

/-- **Counters of a run.**  `free_blocks` never matches, and `free_inodes`
matches until the first failing call. -/
theorem Inv.counters {m : Nat} {disk : Bytes} (h : Inv m disk) :
    (sbFreeBlocks disk).toNat ≠ clearBlocks disk ∧
      ((sbFreeInodes disk).toNat = clearInodes disk ↔ m ≤ 3) := by
  have hblocks : clearBlocks disk = clearCount disk blockBitmap 4096 := by
    rw [clearBlocks, h.layout.totalBlocks]
    rfl
  have hinodes : clearInodes disk = 512 - (m + 1) := by
    rw [clearInodes, h.layout.totalInodes]
    exact clearCount_of_prefix h.inodeBits
  have hcounter := h.blockCounter
  have hcounter' := h.inodeCounter
  rw [hblocks, hinodes]
  omega

/-- The images of the first 106 calls are placed. -/
theorem Inv.placed {m : Nat} {disk : Bytes} (h : Inv m disk) (hm : m < 106) : Placed disk := by
  have hinodes : (sbTotalInodes disk).toNat = 512 := by rw [h.layout.totalInodes]; rfl
  have hblocks : (sbTotalBlocks disk).toNat = 4096 := by rw [h.layout.totalBlocks]; rfl
  have hroot : rootBlock disk = 11 :=
    (word32_congr fun x hlo hhi => h.layout.root x (by simp only [inodeAddr_eq] at hlo; omega)
      (by simp only [inodeAddr_eq] at hhi; omega)).trans (by decide)
  refine ⟨by omega, by omega, ?_, ?_, ?_, ?_⟩
  · rw [hroot]
    decide
  · rw [hroot, h.layout.totalBlocks]
    decide
  · rw [hroot]
    exact h.layout.reserved 11 (by decide)
  · intro n hn
    rw [h.freeInode_eq (by omega)] at hn
    cases hn
    have haddr := inodeAddr_eq (m + 1)
    have hsize : inodeSize = 76 := rfl
    rw [h.layout.rootBase_eq]
    omega

/-! ## One call on any disk -/

/-- The scan depends on the inode fields only. -/
theorem findSlot_congr {disk disk' : Bytes} {base i fuel : Nat}
    (h : ∀ s, i ≤ s → s < i + fuel →
      word32 disk' (entryAddr base s) = word32 disk (entryAddr base s)) :
    findSlot disk' base i fuel = findSlot disk base i fuel := by
  induction fuel generalizing i with
  | zero => rfl
  | succ fuel ih =>
      have hrest := ih (i := i + 1) fun s hs hlt => h s (by omega) (by omega)
      rw [findSlot, findSlot, h i (by omega) (by omega), hrest]

/-- The blocks a call collects on a placed disk. -/
structure Collected (disk : Bytes) (bs : List Nat) : Prop where
  nodup : bs.Nodup
  range : ∀ b ∈ bs, 11 ≤ b ∧ b < (sbTotalBlocks disk).toNat
  clear : ∀ b ∈ bs, bit disk blockBitmap b = false

section Call

variable {disk : Bytes} {n : Nat} {bs : List Nat}

/-- A free inode is in range and its bit is clear. -/
theorem freeInode_bounds (hn : freeInode disk = some n) :
    1 ≤ n ∧ n < (sbTotalInodes disk).toNat ∧ bit disk inodeBitmap n = false := by
  obtain ⟨hlo, hhi, hclear, _⟩ := firstClear_eq_some hn
  exact ⟨hlo, by omega, hclear⟩

/-- The blocks that are chosen are clear data blocks. -/
theorem chosenBlocks_collected (hn : n < 8192) (size : UInt32) :
    Collected disk (chosenBlocks (setBit disk inodeBitmap n) size) := by
  rw [chosenBlocks_of_inode hn]
  have hmem : ∀ b ∈ (clearFrom disk blockBitmap fssoFirstDataBlock
      ((sbTotalBlocks disk).toNat - fssoFirstDataBlock)).take (blocksNeeded size),
      11 ≤ b ∧ b < (sbTotalBlocks disk).toNat ∧ bit disk blockBitmap b = false := by
    intro b hb
    obtain ⟨hlo, hhi, hclear⟩ := mem_clearFrom.mp (List.mem_of_mem_take hb)
    have hfirst : fssoFirstDataBlock = 11 := rfl
    exact ⟨hlo, by omega, hclear⟩
  exact ⟨(clearFrom_nodup _ _ _ _).sublist (List.take_sublist _ _),
    fun b hb => ⟨(hmem b hb).1, (hmem b hb).2.1⟩, fun b hb => (hmem b hb).2.2⟩

/-- The superblock is below the bitmaps. -/
theorem markedDisk_head (disk : Bytes) (n : Nat) (bs : List Nat) {x : Nat} (hx : x < 1024) :
    markedDisk disk n bs x = disk x :=
  markedDisk_of_out disk (by omega) fun b _ => by omega

/-- Marking leaves the totals alone. -/
theorem markedDisk_totals (disk : Bytes) (n : Nat) (bs : List Nat) :
    sbTotalInodes (markedDisk disk n bs) = sbTotalInodes disk ∧
      sbTotalBlocks (markedDisk disk n bs) = sbTotalBlocks disk :=
  ⟨word32_congr fun _ _ _ => markedDisk_head disk n bs (by omega),
    word32_congr fun _ _ _ => markedDisk_head disk n bs (by omega)⟩

/-- Marking takes one inode bit and one block bit for each block. -/
theorem Placed.marked_counts (h : Placed disk) (hn : freeInode disk = some n)
    (hbs : Collected disk bs) :
    clearInodes (markedDisk disk n bs) + 1 = clearInodes disk ∧
      clearBlocks (markedDisk disk n bs) + bs.length = clearBlocks disk := by
  have hmap : inodeBitmap = 1024 := rfl
  have hmap' : blockBitmap = 2048 := rfl
  have hinodes := h.inodes
  obtain ⟨_, hlt, hclear⟩ := freeInode_bounds hn
  obtain ⟨htotal, htotal'⟩ := markedDisk_totals disk n bs
  constructor
  · have hsame : clearCount (markedDisk disk n bs) inodeBitmap (sbTotalInodes disk).toNat =
        clearCount (setBit disk inodeBitmap n) inodeBitmap (sbTotalInodes disk).toNat := by
      apply clearCount_congr
      intro i hi
      exact bit_congr (setBits_of_out _ fun b _ => by omega)
    rw [clearInodes, clearInodes, htotal, hsame]
    exact clearCount_setBit hlt hclear
  · have hsame : clearCount (markedDisk disk n bs) blockBitmap (sbTotalBlocks disk).toNat =
        clearCount (setBits disk blockBitmap bs) blockBitmap (sbTotalBlocks disk).toNat := by
      apply clearCount_congr
      intro i _
      rw [markedDisk, bit_setBits, bit_setBits, bit_congr (setBit_of_out disk (by omega))]
    rw [clearBlocks, clearBlocks, htotal', hsame]
    exact clearCount_setBits hbs.nodup fun b hb => ⟨(hbs.range b hb).2, hbs.clear b hb⟩

/-- The totals and the bytes of the bitmaps decide the clear bits. -/
theorem clear_congr {disk disk' : Bytes} (hinodes : (sbTotalInodes disk).toNat ≤ 8192)
    (hblocks : (sbTotalBlocks disk).toNat ≤ 8192) (htotals : SameOn disk' disk 12 8)
    (hbits : SameOn disk' disk 1024 2048) :
    clearInodes disk' = clearInodes disk ∧ clearBlocks disk' = clearBlocks disk := by
  have hmap : inodeBitmap = 1024 := rfl
  have hmap' : blockBitmap = 2048 := rfl
  have htotal : sbTotalInodes disk' = sbTotalInodes disk :=
    word32_congr fun x _ _ => htotals x (by omega) (by omega)
  have htotal' : sbTotalBlocks disk' = sbTotalBlocks disk :=
    word32_congr fun x _ _ => htotals x (by omega) (by omega)
  constructor
  · rw [clearInodes, clearInodes, htotal]
    exact clearCount_congr fun i _ => bit_congr (hbits _ (by omega) (by omega))
  · rw [clearBlocks, clearBlocks, htotal']
    exact clearCount_congr fun i _ => bit_congr (hbits _ (by omega) (by omega))

/-- Whatever agrees with the marked disk on the totals and the bitmaps has lost
one clear inode bit and a clear block bit for each block. -/
theorem Placed.counts (h : Placed disk) (hn : freeInode disk = some n) (hbs : Collected disk bs)
    {disk' : Bytes} (htotals : SameOn disk' (markedDisk disk n bs) 12 8)
    (hbits : SameOn disk' (markedDisk disk n bs) 1024 2048) :
    clearInodes disk' + 1 = clearInodes disk ∧
      clearBlocks disk' + bs.length = clearBlocks disk := by
  obtain ⟨htotal, htotal'⟩ := markedDisk_totals disk n bs
  obtain ⟨hinodes, hblocks⟩ := clear_congr (by rw [htotal]; exact h.inodes)
    (by rw [htotal']; exact h.blocks) htotals hbits
  rw [hinodes, hblocks]
  exact h.marked_counts hn hbs

/-- Filling the record and the data leaves everything else above the bitmaps. -/
theorem Placed.filled_of_out (h : Placed disk) (hn : freeInode disk = some n)
    (hbs : Collected disk bs) (hlen : bs.length ≤ 12) (data : Bytes) (size : UInt32) {x : Nat}
    (hx : 3072 ≤ x) (hrecord : x < inodeAddr n ∨ inodeAddr n + 76 ≤ x)
    (hdata : ∀ b ∈ bs, x < 1024 * b ∨ 1024 * b + 1024 ≤ x) :
    filledDisk disk n bs data size x = disk x := by
  have hinodes := h.inodes
  have hblocks := h.blocks
  obtain ⟨_, hlt, _⟩ := freeInode_bounds hn
  have hwrites : ∀ b ∈ bs, b < 4194304 ∧ (x < 1024 * b ∨ 1024 * b + 1024 ≤ x) := by
    intro b hb
    have := (hbs.range b hb).2
    exact ⟨by omega, hdata b hb⟩
  have hbits : ∀ b ∈ bs, x ≠ 2048 + b / 8 := by
    intro b hb
    have := (hbs.range b hb).2
    omega
  rw [filledDisk, writeInode_of_out _ _ hlen hrecord, writeData_of_out _ _ hwrites,
    markedDisk_of_out _ (by omega) hbits]

/-- The directory does not wrap. -/
theorem Placed.rootBase_eq (h : Placed disk) :
    rootBase disk = 1024 * (rootBlock disk).toNat := by
  have hlt := UInt32.lt_iff_toNat_lt.mp h.root_lt
  have hblocks := h.blocks
  have hsmall : (rootBlock disk).toNat < 4194304 := by omega
  exact blockAddr_lt_of_small hsmall

/-- The root directory is found and scanned as before the call. -/
theorem Placed.filled_root (h : Placed disk) (hn : freeInode disk = some n)
    (hbs : Collected disk bs) (hlen : bs.length ≤ 12) (data : Bytes) (size : UInt32) :
    rootBase (filledDisk disk n bs data size) = rootBase disk ∧
      freeSlot (filledDisk disk n bs data size) = freeSlot disk := by
  have haddr := inodeAddr_eq n
  have haddr0 := inodeAddr_eq 0
  obtain ⟨hpos, _, _⟩ := freeInode_bounds hn
  have hbase := h.rootBase_eq
  have hge := h.root_ge
  have hrecord := h.record n hn
  have hsize : inodeSize = 76 := rfl
  have hroot : rootBase (filledDisk disk n bs data size) = rootBase disk := by
    have hptr : word32 (filledDisk disk n bs data size) (inodeAddr 0 + 16) =
        word32 disk (inodeAddr 0 + 16) := by
      apply word32_congr
      intro x _ _
      have hdata : ∀ b ∈ bs, x < 1024 * b ∨ 1024 * b + 1024 ≤ x := by
        intro b hb
        have := (hbs.range b hb).1
        omega
      exact h.filled_of_out hn hbs hlen data size (by omega) (by omega) hdata
    rw [rootBase, rootBase, hptr]
  refine ⟨hroot, ?_⟩
  rw [freeSlot, freeSlot, hroot]
  apply findSlot_congr
  intro s _ hs
  have hslots : entriesPerBlock = 3 := rfl
  have hentry := entryAddr_eq (rootBase disk) s
  apply word32_congr
  intro x _ _
  -- The directory's block is in use, so no data went there.
  have hdata : ∀ b ∈ bs, x < 1024 * b ∨ 1024 * b + 1024 ≤ x := by
    intro b hb
    have hne : b ≠ (rootBlock disk).toNat := by
      intro heq
      subst heq
      have hclear := hbs.clear _ hb
      rw [h.root_used] at hclear
      cases hclear
    omega
  exact h.filled_of_out hn hbs hlen data size (by omega) (by omega) hdata

/-- **A failing call that took an inode** leaves the counters behind. -/
theorem Placed.not_follow (h : Placed disk) (hn : freeInode disk = some n)
    (hbs : Collected disk bs) {disk' : Bytes}
    (hsame : SameOn disk' (markedDisk disk n bs) 0 3072) : ¬ CountersFollow disk disk' := by
  obtain ⟨hinodes, _⟩ := h.counts hn hbs (fun x _ _ => hsame x (by omega) (by omega))
    (fun x _ _ => hsame x (by omega) (by omega))
  have hcounter : sbFreeInodes disk' = sbFreeInodes disk := by
    apply word32_congr
    intro x _ _
    rw [hsame x (by omega) (by omega), markedDisk_head disk n bs (by omega)]
  intro hfollow
  have hchange := hfollow.inodes
  rw [hcounter] at hchange
  omega

/-- **A successful call** keeps the counters in step unless one of them wraps. -/
theorem Placed.linked_follow_iff (h : Placed disk) (hn : freeInode disk = some n)
    (hbs : Collected disk bs) (hlen : bs.length ≤ 12) (data : Bytes) (size : UInt32) (slot : Nat)
    (name : List UInt8) :
    CountersFollow disk (linkEntry (filledDisk disk n bs data size) n slot name bs.length) ↔
      1 ≤ (sbFreeInodes disk).toNat ∧ bs.length ≤ (sbFreeBlocks disk).toNat := by
  have hblocks := h.blocks
  have hge := h.root_ge
  have hbase := h.rootBase_eq
  have hroot := (h.filled_root hn hbs hlen data size).1
  have hentry := entryAddr_eq (rootBase disk) slot
  have hlow : ∀ b ∈ bs, 3 ≤ b ∧ b < 4194304 := by
    intro b hb
    have := hbs.range b hb
    omega
  have hfilled : SameOn (filledDisk disk n bs data size) (markedDisk disk n bs) 0 3072 :=
    fun x _ hx => filledDisk_bitmaps data size hlen hlow (by omega)
  have hlink : ∀ x, x < 3072 → x < 20 ∨ 28 ≤ x →
      linkEntry (filledDisk disk n bs data size) n slot name bs.length x =
        markedDisk disk n bs x := by
    intro x hx hcount
    rw [linkEntry_of_out _ name hcount (by rw [hroot]; omega), hfilled x (by omega) (by omega)]
  obtain ⟨hinodes, hblocks'⟩ := h.counts hn hbs
    (fun x _ _ => hlink x (by omega) (by omega)) (fun x _ _ => hlink x (by omega) (by omega))
  obtain ⟨hfreeInodes, hfreeBlocks⟩ :=
    linkEntry_counters (filledDisk disk n bs data size) n slot bs.length name (by omega)
  have hkept : ∀ a, 20 ≤ a → a + 4 ≤ 28 →
      word32 (filledDisk disk n bs data size) a = word32 disk a := by
    intro a _ ha
    apply word32_congr
    intro x _ _
    rw [hfilled x (by omega) (by omega), markedDisk_head disk n bs (by omega)]
  have hbefore : sbFreeInodes (filledDisk disk n bs data size) = sbFreeInodes disk :=
    hkept 24 (by omega) (by omega)
  have hbefore' : sbFreeBlocks (filledDisk disk n bs data size) = sbFreeBlocks disk :=
    hkept 20 (by omega) (by omega)
  have hinodeCounter := congrArg UInt32.toNat hfreeInodes
  have hblockCounter := congrArg UInt32.toNat hfreeBlocks
  have hone : (1 : UInt32).toNat = 1 := rfl
  rw [hbefore, UInt32.toNat_sub, hone] at hinodeCounter
  rw [hbefore', UInt32.toNat_sub, UInt32.toNat_ofNat'] at hblockCounter
  have hlt := (sbFreeInodes disk).toNat_lt
  have hlt' := (sbFreeBlocks disk).toNat_lt
  constructor
  · intro hfollow
    have hchange := hfollow.inodes
    have hchange' := hfollow.blocks
    omega
  · intro hboth
    obtain ⟨hinode, hfound⟩ := hboth
    exact ⟨by omega, by omega⟩

end Call

/-! ## The law -/

/-- **One call.**  On a placed disk the counters follow the bitmaps exactly when
there was no inode to take or there was room for the whole file. -/
theorem Placed.follow_iff {disk disk' : Bytes} {c : AddCall} {r : Int} (h : Placed disk)
    (hrun : c.run disk = some (r, disk')) :
    CountersFollow disk disk' ↔ freeInode disk = none ∨ RoomFor disk c.size := by
  obtain ⟨hnone, _, rfl⟩ | ⟨n, bs, hn, hchosen, hlen, hexit⟩ := fssoAddFile_cases hrun
  · exact ⟨fun _ => Or.inl hnone, fun _ => ⟨by omega, by omega⟩⟩
  · have hinodes := h.inodes
    have hblocks := h.blocks
    have hn8192 : n < 8192 := by
      have := (freeInode_bounds hn).2.1
      omega
    have hbs : Collected disk bs := by
      rw [hchosen]
      exact chosenBlocks_collected hn8192 c.size
    have hlow : ∀ b ∈ bs, 3 ≤ b ∧ b < 4194304 := by
      intro b hb
      have := hbs.range b hb
      omega
    have hcount : bs.length = min (blocksNeeded c.size) (clearFrom disk blockBitmap
        fssoFirstDataBlock ((sbTotalBlocks disk).toNat - fssoFirstDataBlock)).length := by
      rw [hchosen, chosenBlocks_of_inode hn8192, List.length_take]
    have hroot := (h.filled_root hn hbs hlen c.data c.size).2
    have hsome : freeInode disk ≠ none := by simp [hn]
    obtain ⟨hshort, _, rfl⟩ | ⟨_, hfull, _, rfl⟩ | ⟨slot, hexact, hslot, _, rfl⟩ := hexit
    · have hnot := h.not_follow hn hbs (fun x _ _ => rfl)
      refine ⟨fun hfollow => absurd hfollow hnot, fun hor => ?_⟩
      rcases hor with hnone | hroom
      · exact absurd hnone hsome
      · have := hroom.blocks
        omega
    · have hnot := h.not_follow hn hbs
        (fun x _ hx => filledDisk_bitmaps c.data c.size hlen hlow (by omega))
      refine ⟨fun hfollow => absurd hfollow hnot, fun hor => ?_⟩
      rcases hor with hnone | hroom
      · exact absurd hnone hsome
      · exact absurd (hroot.symm.trans hfull) hroom.slot
    · rw [h.linked_follow_iff hn hbs hlen]
      have hfree : freeSlot disk ≠ none := by
        rw [← hroot, hslot]
        exact Option.some_ne_none slot
      constructor
      · intro hboth
        obtain ⟨hone, hfound⟩ := hboth
        exact Or.inr ⟨by omega, hfree, hone, by omega⟩
      · intro hcase
        rcases hcase with hnone | hroom
        · exact absurd hnone hsome
        · have := hroom.blockCounter
          exact ⟨hroom.inodeCounter, by omega⟩

/-- The formatted image has room for the test file. -/
theorem mkfssoFormat_roomFor : RoomFor mkfssoFormat helloCall.size where
  blocks := by
    have hall : (clearFrom mkfssoFormat blockBitmap 11 (4096 - 11)).length =
        clearCount mkfssoFormat blockBitmap 4096 :=
      clearFrom_length (by decide) fun j hj => Layout.of_format.reserved j (by omega)
    rw [mkfssoFormat_clearBlocks] at hall
    have hneeded : blocksNeeded helloCall.size = 1 := rfl
    have htotal : (sbTotalBlocks mkfssoFormat).toNat = 4096 := by decide
    rw [htotal, hneeded, hall]
    decide
  slot := by decide
  inodeCounter := by decide
  blockCounter := by decide

/-- **Counters against bitmaps.**  No image of a run has a `free_blocks` that
matches its bitmap, the formatted one included, and `free_inodes` matches exactly
while at most three calls were made.  A single call on any placed disk changes
both counters by the change of the bitmaps exactly when it finds no inode, or
finds blocks and a slot and wraps no counter. -/
theorem freeCounters_match_iff (disk : Bytes) :
    (∀ calls, Reaches calls disk →
      (sbFreeBlocks disk).toNat ≠ clearBlocks disk ∧
      ((sbFreeInodes disk).toNat = clearInodes disk ↔ calls.length ≤ 3)) ∧
    (∀ disk' c r, Placed disk → AddCall.run c disk = some (r, disk') →
      (CountersFollow disk disk' ↔ freeInode disk = none ∨ RoomFor disk c.size)) :=
  ⟨fun _ hreach => hreach.inv.counters, fun _ _ _ hplaced hrun => hplaced.follow_iff hrun⟩

/-- On the formatted disk and after the first file. -/
theorem freeCounters_match_iff_hello :
    (sbFreeBlocks mkfssoFormat).toNat ≠ clearBlocks mkfssoFormat ∧
      CountersFollow mkfssoFormat helloDisk :=
  ⟨((freeCounters_match_iff mkfssoFormat).1 [] Reaches.format).1,
    ((freeCounters_match_iff mkfssoFormat).2 helloDisk helloCall 0
      (Inv.of_format.placed (by decide)) helloCall_run).mpr (Or.inr mkfssoFormat_roomFor)⟩

/-- The formatted image counts the root directory's block as free. -/
theorem mkfssoFormat_freeBlocks :
    Reaches [] mkfssoFormat ∧ (sbFreeBlocks mkfssoFormat).toNat = 4085 ∧
      clearBlocks mkfssoFormat = 4084 := by
  refine ⟨Reaches.format, by decide, ?_⟩
  rw [clearBlocks, Layout.of_format.totalBlocks]
  exact mkfssoFormat_clearBlocks

end Fsso
