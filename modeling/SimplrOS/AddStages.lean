import SimplrOS.Mkfsso

/-!
# The stages of one add

What each stage of `fsso_add_file` writes and where.  Every stage comes with a
frame lemma (`_of_out`) that names the bytes it may change and with lemmas that
read back what it stored.  Block numbers are assumed below `2 ^ 22`, so that the
`uint32_t` product of a block number and the block size does not wrap.
-/

namespace Fsso

open ByteStore

/-- Direct pointer `j` of inode `n` in the writer's table. -/
def pointer (disk : Bytes) (n j : Nat) : UInt32 := word32 disk (inodeAddr n + 16 + 4 * j)

/-! ## Sizes -/

/-- Below 4 GiB the address of a block does not wrap. -/
theorem blockAddr_ofNat {b : Nat} (hb : b < 4194304) :
    blockAddr (UInt32.ofNat b) = 1024 * b := by
  simp only [blockAddr, UInt32.toNat_mul, UInt32.toNat_ofNat', UInt32.reduceToNat]
  omega

theorem blockAddr_lt_of_small {b : UInt32} (hb : b.toNat < 4194304) :
    blockAddr b = 1024 * b.toNat := by
  rw [← blockAddr_ofNat hb, UInt32.ofNat_toNat]

/-- A chunk is at most one block. -/
theorem chunkSize_le (size : UInt32) (i : Nat) : (chunkSize size i).toNat ≤ 1024 := by
  simp only [chunkSize]
  split
  · decide
  · rename_i h
    have := UInt32.le_iff_toNat_le.mp (UInt32.not_lt.mp h)
    simpa using this

theorem offset_toNat {i : Nat} (hi : i < 4194304) :
    (UInt32.ofNat i * 1024).toNat = 1024 * i := blockAddr_ofNat hi

/-- Inside the file the chunk is a full block or what is left. -/
theorem chunkSize_eq {size : UInt32} {i : Nat} (hi : 1024 * i < size.toNat) :
    (chunkSize size i).toNat = min 1024 (size.toNat - 1024 * i) := by
  have hsize := size.toNat_lt
  have hoff := offset_toNat (show i < 4194304 by omega)
  have hle : UInt32.ofNat i * 1024 ≤ size := UInt32.le_iff_toNat_le.mpr (by omega)
  have hsub : (size - UInt32.ofNat i * 1024).toNat = size.toNat - 1024 * i := by
    rw [UInt32.toNat_sub_of_le _ _ hle, hoff]
  simp only [chunkSize]
  split
  · rename_i h
    have hgt := UInt32.lt_iff_toNat_lt.mp h
    simp only [hsub, UInt32.reduceToNat] at hgt ⊢
    omega
  · rename_i h
    have hle' := UInt32.le_iff_toNat_le.mp (UInt32.not_lt.mp h)
    simp only [hsub, UInt32.reduceToNat] at hle' ⊢
    omega

/-- Without wrap-around the call needs the size rounded up to blocks. -/
theorem blocksNeeded_eq {size : UInt32} (h : size.toNat + 1023 < 4294967296) :
    blocksNeeded size = (size.toNat + 1023) / 1024 := by
  have hsum : (size + 1024 - 1).toNat = size.toNat + 1023 := by
    simp only [UInt32.toNat_sub, UInt32.toNat_add, UInt32.reduceToNat]
    omega
  rw [blocksNeeded, UInt32.toNat_div, hsum]
  rfl

/-! ## Bitmaps -/

/-- Marking touches one byte of the inode bitmap and one byte of the block
bitmap for each block. -/
theorem markedDisk_of_out (disk : Bytes) {n x : Nat} {bs : List Nat}
    (hn : x ≠ 1024 + n / 8) (hbs : ∀ b ∈ bs, x ≠ 2048 + b / 8) :
    markedDisk disk n bs x = disk x :=
  (setBits_of_out _ hbs).trans (setBit_of_out _ hn)

/-- An inode bit is no block bit while the inode bitmap keeps to its block. -/
theorem setBit_inode_blockBit (disk : Bytes) {n i : Nat} (hn : n < 8192) :
    bit (setBit disk inodeBitmap n) blockBitmap i = bit disk blockBitmap i := by
  have hmap : inodeBitmap = 1024 := rfl
  have hmap' : blockBitmap = 2048 := rfl
  exact bit_congr (setBit_of_out disk (by omega))

/-- Taking an inode does not change which blocks are collected. -/
theorem chosenBlocks_of_inode {disk : Bytes} {n : Nat} (hn : n < 8192) (size : UInt32) :
    chosenBlocks (setBit disk inodeBitmap n) size =
      (clearFrom disk blockBitmap fssoFirstDataBlock
        ((sbTotalBlocks disk).toNat - fssoFirstDataBlock)).take (blocksNeeded size) := by
  have hmap : inodeBitmap = 1024 := rfl
  have htotal : sbTotalBlocks (setBit disk inodeBitmap n) = sbTotalBlocks disk :=
    word32_congr fun x _ _ => setBit_of_out disk (by omega)
  have hclear : ∀ i fuel, clearFrom (setBit disk inodeBitmap n) blockBitmap i fuel =
      clearFrom disk blockBitmap i fuel :=
    fun i fuel => List.filter_congr fun j _ => by rw [setBit_inode_blockBit disk hn]
  rw [chosenBlocks, htotal, hclear]

/-! ## Data -/

/-- Data is written to the blocks of the file only. -/
theorem writeData_of_out (size : UInt32) (data : Bytes) {x : Nat} {bs : List Nat}
    (hx : ∀ b ∈ bs, b < 4194304 ∧ (x < 1024 * b ∨ 1024 * b + 1024 ≤ x)) (i : Nat)
    (disk : Bytes) : writeData size data i bs disk x = disk x := by
  induction bs generalizing i disk with
  | nil => rfl
  | cons b bs ih =>
      obtain ⟨hb, hout⟩ := hx b List.mem_cons_self
      have hchunk := chunkSize_le size i
      rw [writeData, ih (fun c hc => hx c (List.mem_cons_of_mem _ hc)),
        copyBytes_of_out _ _ (by rw [blockAddr_ofNat hb]; omega)]

/-- **Data placement.**  After the data loop the `k`-th collected block holds
the `k`-th chunk of the data. -/
theorem writeData_apply {size : UInt32} {data : Bytes} {bs : List Nat} (hnd : bs.Nodup)
    (hbs : ∀ b ∈ bs, b < 4194304) (i : Nat) (disk : Bytes) {k j : Nat} (hk : k < bs.length)
    (hj : j < 1024) (hin : 1024 * (i + k) + j < size.toNat) :
    writeData size data i bs disk (1024 * bs[k] + j) = data (1024 * (i + k) + j) := by
  induction bs generalizing i disk k with
  | nil => simp at hk
  | cons b bs ih =>
      have hb := hbs b List.mem_cons_self
      have hrest : ∀ c ∈ bs, c < 4194304 := fun c hc => hbs c (List.mem_cons_of_mem _ hc)
      rw [List.nodup_cons] at hnd
      have hsize := size.toNat_lt
      cases k with
      | zero =>
          have hforeign : ∀ c ∈ bs, c < 4194304 ∧
              (1024 * b + j < 1024 * c ∨ 1024 * c + 1024 ≤ 1024 * b + j) := by
            intro c hc
            have hne : c ≠ b := fun heq => hnd.1 (heq ▸ hc)
            exact ⟨hrest c hc, by omega⟩
          have hchunk := chunkSize_eq (show 1024 * i < size.toNat by omega)
          have hoff := offset_toNat (show i < 4194304 by omega)
          rw [writeData, List.getElem_cons_zero, writeData_of_out size data hforeign,
            copyBytes_apply, blockAddr_ofNat hb, if_pos (by omega)]
          have hindex : (UInt32.ofNat i * 1024 + UInt32.ofNat (1024 * b + j - 1024 * b)).toNat =
              1024 * (i + 0) + j := by
            rw [UInt32.toNat_add, hoff, UInt32.toNat_ofNat']
            omega
          rw [hindex]
      | succ k =>
          have hk' : k < bs.length := by simpa using hk
          have hshift : i + (k + 1) = i + 1 + k := by omega
          rw [writeData, List.getElem_cons_succ, hshift]
          exact ih hnd.2 hrest (i + 1) _ hk' (by omega)

/-! ## The inode record -/

/-- The record is written to its place in the table only. -/
theorem writeInode_of_out (disk : Bytes) {n x : Nat} (size : UInt32) {bs : List Nat}
    (hbs : bs.length ≤ 12) (hx : x < inodeAddr n ∨ inodeAddr n + 76 ≤ x) :
    writeInode disk n size bs x = disk x := by
  have hlen : (bs.map UInt32.ofNat).length ≤ 12 := by simpa using hbs
  simp only [writeInode]
  rw [putWords_of_out _ (by omega), putWord32_of_out _ _ (by omega),
    putWord32_of_out _ _ (by omega), put_ne _ _ (by omega), putWord32_of_out _ _ (by omega)]

/-- The pointers the record gets: the collected blocks, then the old ones. -/
theorem pointer_writeInode (disk : Bytes) (n : Nat) (size : UInt32) (bs : List Nat) (j : Nat) :
    pointer (writeInode disk n size bs) n j =
      if hj : j < bs.length then UInt32.ofNat bs[j] else pointer disk n j := by
  have hlen : (bs.map UInt32.ofNat).length = bs.length := by simp
  simp only [pointer, writeInode]
  split
  · rename_i hj
    rw [word32_putWords _ _ _ (by omega)]
    simp
  · rw [word32_putWords_of_out _ (by omega), word32_putWord32_of_out _ _ (by omega),
      word32_putWord32_of_out _ _ (by omega), word32_put_of_out _ _ (by omega),
      word32_putWord32_of_out _ _ (by omega)]

/-- The record is that of a file. -/
theorem writeInode_type (disk : Bytes) (n : Nat) (size : UInt32) (bs : List Nat) :
    writeInode disk n size bs (inodeAddr n + 12) = fssoTypeFile := by
  simp only [writeInode]
  rw [putWords_of_out _ (by omega), putWord32_of_out _ _ (by omega),
    putWord32_of_out _ _ (by omega), put_same]

/-- The record holds the size of the file. -/
theorem writeInode_size (disk : Bytes) (n : Nat) (size : UInt32) (bs : List Nat) :
    word32 (writeInode disk n size bs) (inodeAddr n) = size := by
  simp only [writeInode]
  rw [word32_putWords_of_out _ (by omega), word32_putWord32_of_out _ _ (by omega),
    word32_putWord32_of_out _ _ (by omega), word32_put_of_out _ _ (by omega), word32_putWord32]

/-! ## The directory entry -/

/-- The slot found is the first free one. -/
theorem findSlot_eq_some {disk : Bytes} {base i fuel slot : Nat}
    (h : findSlot disk base i fuel = some slot) :
    i ≤ slot ∧ slot < i + fuel ∧ word32 disk (entryAddr base slot) = 0 ∧
      ∀ s, i ≤ s → s < slot → word32 disk (entryAddr base s) ≠ 0 := by
  induction fuel generalizing i with
  | zero => simp [findSlot] at h
  | succ fuel ih =>
      rw [findSlot] at h
      split at h
      · rename_i hfree
        cases h
        exact ⟨Nat.le_refl _, by omega, hfree, fun s _ _ => by omega⟩
      · rename_i hused
        obtain ⟨hlo, hhi, hfree, hbelow⟩ := ih h
        refine ⟨by omega, by omega, hfree, ?_⟩
        intro s hs hslot
        by_cases heq : s = i
        · exact heq ▸ hused
        · exact hbelow s (by omega) hslot

/-- No slot is found only if all are in use. -/
theorem findSlot_eq_none {disk : Bytes} {base i fuel : Nat}
    (h : findSlot disk base i fuel = none) :
    ∀ s, i ≤ s → s < i + fuel → word32 disk (entryAddr base s) ≠ 0 := by
  induction fuel generalizing i with
  | zero => intro s _ _; omega
  | succ fuel ih =>
      rw [findSlot] at h
      split at h
      · cases h
      · rename_i hused
        intro s hs hi
        by_cases heq : s = i
        · exact heq ▸ hused
        · exact ih h s (by omega) (by omega)

/-- The name and its NUL take at most `room + 1` bytes. -/
theorem copyName_of_out (disk : Bytes) {pos room x : Nat} (name : List UInt8)
    (hx : x < pos ∨ pos + room + 1 ≤ x) : copyName disk pos room name x = disk x := by
  induction room generalizing disk pos name with
  | zero => exact put_ne _ _ (by omega)
  | succ room ih =>
      cases name with
      | nil => exact put_ne _ _ (by omega)
      | cons c rest =>
          rw [copyName]
          split
          · exact put_ne _ _ (by omega)
          · rw [ih _ _ (by omega), put_ne _ _ (by omega)]

/-- The entry takes its 260 bytes and the counters take eight. -/
theorem linkEntry_of_out (disk : Bytes) {n slot found x : Nat} (name : List UInt8)
    (hcount : x < 20 ∨ 28 ≤ x)
    (hentry : x < entryAddr (rootBase disk) slot ∨ entryAddr (rootBase disk) slot + 260 ≤ x) :
    linkEntry disk n slot name found x = disk x := by
  simp only [linkEntry]
  rw [putWord32_of_out _ _ (by omega), putWord32_of_out _ _ (by omega),
    copyName_of_out _ _ (by simp only [fssoMaxFilename]; omega),
    putWord32_of_out _ _ (by omega)]

/-- The new entry holds the inode number. -/
theorem linkEntry_inode (disk : Bytes) (n slot found : Nat) (name : List UInt8)
    (hroot : 28 ≤ rootBase disk) :
    word32 (linkEntry disk n slot name found) (entryAddr (rootBase disk) slot) =
      UInt32.ofNat n := by
  have haddr := entryAddr_eq (rootBase disk) slot
  simp only [linkEntry]
  rw [word32_putWord32_of_out _ _ (by omega), word32_putWord32_of_out _ _ (by omega)]
  have hname : SameOn
      (copyName (putWord32 disk (entryAddr (rootBase disk) slot) (UInt32.ofNat n))
        (entryAddr (rootBase disk) slot + 4) fssoMaxFilename name)
      (putWord32 disk (entryAddr (rootBase disk) slot) (UInt32.ofNat n))
      (entryAddr (rootBase disk) slot) 4 :=
    fun _ _ _ => copyName_of_out _ _ (by omega)
  rw [word32_congr hname, word32_putWord32]

/-- The success exit lowers both counters, in `uint32_t` arithmetic. -/
theorem linkEntry_counters (disk : Bytes) (n slot found : Nat) (name : List UInt8)
    (hroot : 28 ≤ rootBase disk) :
    sbFreeInodes (linkEntry disk n slot name found) = sbFreeInodes disk - 1 ∧
    sbFreeBlocks (linkEntry disk n slot name found) =
      sbFreeBlocks disk - UInt32.ofNat found := by
  have haddr := entryAddr_eq (rootBase disk) slot
  have hkept : ∀ a, a + 4 ≤ 28 → word32 (copyName (putWord32 disk
      (entryAddr (rootBase disk) slot) (UInt32.ofNat n)) (entryAddr (rootBase disk) slot + 4)
      fssoMaxFilename name) a = word32 disk a := by
    intro a ha
    apply word32_congr
    intro x _ _
    rw [copyName_of_out _ _ (by omega), putWord32_of_out _ _ (by omega)]
  constructor
  · simp only [linkEntry, sbFreeInodes]
    rw [word32_putWord32_of_out _ _ (by omega), word32_putWord32, hkept 24 (by omega)]
  · simp only [linkEntry, sbFreeBlocks]
    rw [word32_putWord32, word32_putWord32_of_out _ _ (by omega), hkept 20 (by omega)]

end Fsso
