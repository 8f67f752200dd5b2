import SimplrOS.FssoLayout

/-!
# The image writer

`mkfssoFormat` is the image that `main` of `mkfsso.c` builds before it adds its
first file, and `fssoAddFile` is `fsso_add_file`.  The disk is the flat array
the tool allocates; all arithmetic on `uint32_t` wraps as in the source.

The local array `allocated_blocks` has 12 elements and its index is bounded by
nothing but the free space.  A call that would store past its end has no
defined behaviour, and `fssoAddFile` answers `none` for it; every other call
answers its return value and the disk it leaves, on the failure exits as well.

`fssoAddFile_cases` lists everything a call can do.  The stages it names
(`markedDisk`, `filledDisk`, `linkEntry`) are the disk after the bitmaps, after
the data and the inode record, and after the directory entry.
-/

namespace Fsso

open ByteStore

/-- The disk `main` has built when it starts adding files. -/
def mkfssoFormat : Bytes :=
  let disk : Bytes := fun _ => 0
  let disk := putWord64 disk 0 fssoMagic
  let disk := putWord32 disk 8 1024
  let disk := putWord32 disk 12 4096
  let disk := putWord32 disk 16 512
  let disk := putWord32 disk 20 (4096 - 11)
  let disk := putWord32 disk 24 (512 - 1)
  let disk := putWord32 disk 28 11
  let disk := putWord32 disk 40 1
  let disk := copyBytes disk 32 (fun i => [70, 83, 83, 79, 32, 32, 32, 32].getD i 0) 8
  let disk := put disk inodeBitmap 0x01
  let disk := put disk blockBitmap 0xFF
  let disk := put disk (blockBitmap + 1) 0x07
  let disk := putWord32 disk (inodeAddr 0) 0
  let disk := putWord32 disk (inodeAddr 0 + 4) 0
  let disk := putWord32 disk (inodeAddr 0 + 8) 0
  let disk := put disk (inodeAddr 0 + 12) fssoTypeDir
  let disk := putWord32 disk (inodeAddr 0 + 16) 11
  put disk (blockBitmap + 1) (disk (blockBitmap + 1) ||| 0x08)

/-- `sb->total_blocks`, `sb->total_inodes` and the two free counters. -/
def sbTotalBlocks (disk : Bytes) : UInt32 := word32 disk 12

/-- `total_inodes` of the superblock on `disk`. -/
def sbTotalInodes (disk : Bytes) : UInt32 := word32 disk 16

/-- `free_blocks` of the superblock on `disk`. -/
def sbFreeBlocks (disk : Bytes) : UInt32 := word32 disk 20

/-- `free_inodes` of the superblock on `disk`. -/
def sbFreeInodes (disk : Bytes) : UInt32 := word32 disk 24

/-- The inode the first loop settles on. -/
def freeInode (disk : Bytes) : Option Nat :=
  firstClear disk inodeBitmap 1 ((sbTotalInodes disk).toNat - 1)

/-- `blocks_needed`, computed in `uint32_t`. -/
def blocksNeeded (size : UInt32) : Nat := ((size + 1024 - 1) / 1024).toNat

/-- The block loop, from block `i` on, with `allocated` already collected.
`none` is the store past the end of `allocated_blocks`. -/
def claimBlocks (needed : Nat) : Nat → Nat → Bytes → List Nat → Option (List Nat × Bytes)
  | 0, _, disk, allocated => some (allocated, disk)
  | fuel+1, i, disk, allocated =>
      if allocated.length < needed then
        if bit disk blockBitmap i then
          claimBlocks needed fuel (i + 1) disk allocated
        else if allocated.length < fssoDirectBlocks then
          claimBlocks needed fuel (i + 1) (setBit disk blockBitmap i) (allocated ++ [i])
        else none
      else some (allocated, disk)

/-- `to_copy` for the `i`-th data block. -/
def chunkSize (size : UInt32) (i : Nat) : UInt32 :=
  let toCopy := size - UInt32.ofNat i * 1024
  if toCopy > 1024 then 1024 else toCopy

/-- Address of a block inside the disk array; the product is a `uint32_t`. -/
def blockAddr (b : UInt32) : Nat := (b * 1024).toNat

/-- The data loop, with `i` blocks already written. -/
def writeData (size : UInt32) (data : Bytes) : Nat → List Nat → Bytes → Bytes
  | _, [], disk => disk
  | i, b :: rest, disk =>
      let offset := UInt32.ofNat i * 1024
      let chunk : Nat → UInt8 := fun j => data (offset + UInt32.ofNat j).toNat
      writeData size data (i + 1) rest
        (copyBytes disk (blockAddr (UInt32.ofNat b)) chunk (chunkSize size i).toNat)

/-- The stores into inode record `n`; the other fields keep their bytes. -/
def writeInode (disk : Bytes) (n : Nat) (size : UInt32) (allocated : List Nat) : Bytes :=
  let disk := putWord32 disk (inodeAddr n) size
  let disk := put disk (inodeAddr n + 12) fssoTypeFile
  let disk := putWord32 disk (inodeAddr n + 4) 0
  let disk := putWord32 disk (inodeAddr n + 8) 0
  putWords disk (inodeAddr n + 16) (allocated.map UInt32.ofNat)

/-- `disk + root->direct[0] * FSSO_BLOCK_SIZE`. -/
def rootBase (disk : Bytes) : Nat := blockAddr (word32 disk (inodeAddr 0 + 16))

/-- The slot loop: the first entry whose inode field is zero. -/
def findSlot (disk : Bytes) (base : Nat) : Nat → Nat → Option Nat
  | _, 0 => none
  | i, fuel+1 =>
      if word32 disk (entryAddr base i) = 0 then some i else findSlot disk base (i + 1) fuel

/-- The name loop and the NUL after it; `room` counts down from 255. -/
def copyName (disk : Bytes) (pos : Nat) : Nat → List UInt8 → Bytes
  | 0, _ => put disk pos 0
  | _+1, [] => put disk pos 0
  | room+1, c :: rest =>
      if c = 0 then put disk pos 0 else copyName (put disk pos c) (pos + 1) room rest

/-- The directory entry and the two counter updates of the success exit. -/
def linkEntry (disk : Bytes) (n slot : Nat) (name : List UInt8) (found : Nat) : Bytes :=
  let entry := entryAddr (rootBase disk) slot
  let disk := putWord32 disk entry (UInt32.ofNat n)
  let disk := copyName disk (entry + 4) fssoMaxFilename name
  let disk := putWord32 disk 24 (sbFreeInodes disk - 1)
  putWord32 disk 20 (sbFreeBlocks disk - UInt32.ofNat found)

/-- The first free root slot. -/
def freeSlot (disk : Bytes) : Option Nat := findSlot disk (rootBase disk) 0 entriesPerBlock

/-- The last part of the call: the slot scan and its two exits. -/
def addToRoot (disk : Bytes) (n : Nat) (name : List UInt8) (found : Nat) : Int × Bytes :=
  match freeSlot disk with
  | none => (-1, disk)
  | some slot => (0, linkEntry disk n slot name found)

/-- `fsso_add_file`: the value returned and the disk after it, or `none` where the call stores
past the twelve entries of its array. -/
def fssoAddFile (disk : Bytes) (name : List UInt8) (data : Bytes) (size : UInt32) :
    Option (Int × Bytes) :=
  match freeInode disk with
  | none => some (-1, disk)
  | some n =>
      let disk := setBit disk inodeBitmap n
      let needed := blocksNeeded size
      match claimBlocks needed ((sbTotalBlocks disk).toNat - fssoFirstDataBlock)
          fssoFirstDataBlock disk [] with
      | none => none
      | some (allocated, disk) =>
          if allocated.length < needed then some (-1, disk)
          else
            let disk := writeData size data 0 allocated disk
            let disk := writeInode disk n size allocated
            some (addToRoot disk n name allocated.length)

/-! ## What a call can do -/

/-- The blocks a call collects: the first clear ones, as many as it needs. -/
def chosenBlocks (disk : Bytes) (size : UInt32) : List Nat :=
  (clearFrom disk blockBitmap fssoFirstDataBlock
    ((sbTotalBlocks disk).toNat - fssoFirstDataBlock)).take (blocksNeeded size)

/-- The disk with the bitmap bits of inode `n` and of the blocks `bs` set. -/
def markedDisk (disk : Bytes) (n : Nat) (bs : List Nat) : Bytes :=
  setBits (setBit disk inodeBitmap n) blockBitmap bs

/-- The disk with the data and the inode record written as well. -/
def filledDisk (disk : Bytes) (n : Nat) (bs : List Nat) (data : Bytes) (size : UInt32) : Bytes :=
  writeInode (writeData size data 0 bs (markedDisk disk n bs)) n size bs

/-- The claiming loop marks the first clear blocks and appends them to its array. -/
theorem claimBlocks_eq (needed fuel i : Nat) (disk : Bytes) (allocated : List Nat)
    (hroom : allocated.length ≤ 12) :
    claimBlocks needed fuel i disk allocated =
      let more := (clearFrom disk blockBitmap i fuel).take (needed - allocated.length)
      if allocated.length + more.length ≤ 12 then
        some (allocated ++ more, setBits disk blockBitmap more)
      else none := by
  induction fuel generalizing i disk allocated with
  | zero => simp [claimBlocks, clearFrom, setBits, hroom]
  | succ fuel ih =>
      rw [claimBlocks, clearFrom_succ]
      by_cases hneed : allocated.length < needed
      · rw [if_pos hneed]
        by_cases hbit : bit disk blockBitmap i = true
        · rw [if_pos hbit, if_pos hbit]
          exact ih (i + 1) disk allocated hroom
        · have hsame : clearFrom (setBit disk blockBitmap i) blockBitmap (i + 1) fuel =
              clearFrom disk blockBitmap (i + 1) fuel := by
            apply List.filter_congr
            intro j hj
            have : j ≠ i := by
              have := (List.mem_range'_1.mp hj).1
              omega
            simp [bit_setBit, this]
          obtain ⟨k, hk⟩ : ∃ k, needed - allocated.length = k + 1 :=
            ⟨needed - allocated.length - 1, by omega⟩
          rw [if_neg hbit, if_neg hbit, hk, List.take_succ_cons]
          by_cases hfull : allocated.length < 12
          · have hk' : needed - (allocated ++ [i]).length = k := by simp; omega
            rw [if_pos hfull, ih _ _ _ (by simp; omega), hk', hsame]
            simp only [List.length_append, List.length_cons, List.length_nil, Nat.zero_add,
              setBits, List.append_assoc, List.singleton_append, Nat.add_assoc, Nat.add_comm 1]
          · rw [if_neg hfull]
            simp only [List.length_cons]
            rw [if_neg (by omega)]
      · have hzero : needed - allocated.length = 0 := by omega
        simp [hneed, hzero, setBits, hroom]

/-- The call once the inode scan has succeeded, in terms of the stages. -/
theorem fssoAddFile_of_free {disk : Bytes} {n : Nat} (name : List UInt8) (data : Bytes)
    (size : UInt32) (hn : freeInode disk = some n) :
    fssoAddFile disk name data size =
      let bs := chosenBlocks (setBit disk inodeBitmap n) size
      let filled := filledDisk disk n bs data size
      if bs.length ≤ 12 then
        if bs.length < blocksNeeded size then some (-1, markedDisk disk n bs)
        else some (addToRoot filled n name bs.length)
      else none := by
  have hclaim := claimBlocks_eq (blocksNeeded size)
    ((sbTotalBlocks (setBit disk inodeBitmap n)).toNat - fssoFirstDataBlock)
    fssoFirstDataBlock (setBit disk inodeBitmap n) [] (by simp)
  simp only [List.length_nil, Nat.sub_zero, Nat.zero_add, List.nil_append] at hclaim
  rw [← chosenBlocks] at hclaim
  simp only [fssoAddFile, hn, hclaim]
  by_cases hroom : (chosenBlocks (setBit disk inodeBitmap n) size).length ≤ 12
  · simp only [if_pos hroom]
    rfl
  · simp only [if_neg hroom]

/-- **Everything a call can do.**  Either no inode is free and the disk is
untouched, or the lowest free inode is marked together with the chosen blocks;
then the blocks were too few, or the data and the record were written and the
directory was full, or the entry was written as well. -/
theorem fssoAddFile_cases {disk disk' : Bytes} {name : List UInt8} {data : Bytes}
    {size : UInt32} {r : Int} (h : fssoAddFile disk name data size = some (r, disk')) :
    (freeInode disk = none ∧ r = -1 ∧ disk' = disk) ∨
    ∃ n bs, freeInode disk = some n ∧ bs = chosenBlocks (setBit disk inodeBitmap n) size ∧
      bs.length ≤ 12 ∧
      ((bs.length < blocksNeeded size ∧ r = -1 ∧ disk' = markedDisk disk n bs) ∨
       (bs.length = blocksNeeded size ∧ freeSlot (filledDisk disk n bs data size) = none ∧
        r = -1 ∧ disk' = filledDisk disk n bs data size) ∨
       ∃ slot, bs.length = blocksNeeded size ∧
        freeSlot (filledDisk disk n bs data size) = some slot ∧ r = 0 ∧
        disk' = linkEntry (filledDisk disk n bs data size) n slot name bs.length) := by
  cases hn : freeInode disk with
  | none =>
      simp only [fssoAddFile, hn, Option.some.injEq, Prod.mk.injEq] at h
      exact Or.inl ⟨rfl, h.1.symm, h.2.symm⟩
  | some n =>
      have hle : (chosenBlocks (setBit disk inodeBitmap n) size).length ≤ blocksNeeded size :=
        List.length_take_le _ _
      rw [fssoAddFile_of_free name data size hn] at h
      refine Or.inr ⟨n, chosenBlocks (setBit disk inodeBitmap n) size, rfl, rfl, ?_⟩
      generalize chosenBlocks (setBit disk inodeBitmap n) size = bs at hle h ⊢
      dsimp only at h
      split at h
      · rename_i hroom
        refine ⟨hroom, ?_⟩
        split at h
        · rename_i hshort
          cases h
          exact Or.inl ⟨hshort, rfl, rfl⟩
        · have hexact : bs.length = blocksNeeded size := by omega
          right
          cases hslot : freeSlot (filledDisk disk n bs data size) with
          | none =>
              simp only [addToRoot, hslot, Option.some.injEq, Prod.mk.injEq] at h
              exact Or.inl ⟨hexact, rfl, h.1.symm, h.2.symm⟩
          | some slot =>
              simp only [addToRoot, hslot, Option.some.injEq, Prod.mk.injEq] at h
              exact Or.inr ⟨slot, hexact, rfl, h.1.symm, h.2.symm⟩
      · cases h

end Fsso
