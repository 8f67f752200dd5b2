import SimplrOS.Bitmap

/-!
# The FSSO on-disk format

The packed records of `fsso.h` and where they lie.  Block 0 holds the
superblock, block 1 the inode bitmap, block 2 the block bitmap, and the inode
table starts at block 3.  Data blocks start at block 11; the first of them is
the root directory.

`sizeof(FSSO_Inode)` is 76 and `sizeof(FSSO_DirEntry)` is 260, so neither
divides the block size: a block has room for 13 whole inodes and 3 whole
directory entries.
-/

namespace Fsso

open ByteStore

/-- `FSSO_MAGIC`. -/
abbrev fssoMagic : UInt64 := 0x4653534F5F5631

/-- `FSSO_BLOCK_SIZE`. -/
abbrev fssoBlockSize : Nat := 1024

/-- `FSSO_MAX_FILENAME`. -/
abbrev fssoMaxFilename : Nat := 255

/-- `FSSO_FIRST_DATA_BLOCK`. -/
abbrev fssoFirstDataBlock : Nat := 11

/-- `FSSO_DIRECT_BLOCKS`. -/
abbrev fssoDirectBlocks : Nat := 12

/-- `FSSO_TYPE_FILE`. -/
abbrev fssoTypeFile : UInt8 := 1

/-- `FSSO_TYPE_DIR`. -/
abbrev fssoTypeDir : UInt8 := 2

/-- `sizeof(FSSO_Inode)`. -/
abbrev inodeSize : Nat := 76

/-- `sizeof(FSSO_DirEntry)`. -/
abbrev dirEntrySize : Nat := 260

/-- `FSSO_BLOCK_SIZE / sizeof(FSSO_DirEntry)`. -/
abbrev entriesPerBlock : Nat := fssoBlockSize / dirEntrySize

/-- Byte offsets of the bitmaps and of the inode table. -/
abbrev inodeBitmap : Nat := fssoBlockSize
abbrev blockBitmap : Nat := fssoBlockSize * 2
abbrev inodeTable : Nat := fssoBlockSize * 3

/-- `FSSO_Superblock`. -/
structure FssoSuperblock where
  magic : UInt64
  blockSize : UInt32
  totalBlocks : UInt32
  totalInodes : UInt32
  freeBlocks : UInt32
  freeInodes : UInt32
  firstDataBlockl : UInt32
  fsName : Vector UInt8 8
  version : UInt32
  reserved : Vector UInt32 12
deriving DecidableEq

/-- `FSSO_Inode`. -/
structure FssoInode where
  size : UInt32
  created : UInt32
  modified : UInt32
  type : UInt8
  reserved : Vector UInt8 3
  direct : Vector UInt32 fssoDirectBlocks
  indirect : UInt32
  doubleIndirect : UInt32
  tripleIndirect : UInt32
deriving DecidableEq

/-- The mounted file system; `diskStartBlock` is set by the mount and read by
nobody. -/
structure FssoFilesystem where
  superblock : FssoSuperblock
  diskStartBlock : UInt32
deriving DecidableEq

/-- The superblock record whose first byte is at `a`. -/
def superblockAt (s : Bytes) (a : Nat) : FssoSuperblock where
  magic := word64 s a
  blockSize := word32 s (a + 8)
  totalBlocks := word32 s (a + 12)
  totalInodes := word32 s (a + 16)
  freeBlocks := word32 s (a + 20)
  freeInodes := word32 s (a + 24)
  firstDataBlockl := word32 s (a + 28)
  fsName := Vector.ofFn fun i => s (a + 32 + i)
  version := word32 s (a + 40)
  reserved := Vector.ofFn fun i => word32 s (a + 44 + 4 * i)

/-- The inode record whose first byte is at `a`. -/
def inodeAt (s : Bytes) (a : Nat) : FssoInode where
  size := word32 s a
  created := word32 s (a + 4)
  modified := word32 s (a + 8)
  type := s (a + 12)
  reserved := Vector.ofFn fun i => s (a + 13 + i)
  direct := Vector.ofFn fun i => word32 s (a + 16 + 4 * i)
  indirect := word32 s (a + 64)
  doubleIndirect := word32 s (a + 68)
  tripleIndirect := word32 s (a + 72)

/-- Store a whole inode record at `a`. -/
def putInode (s : Bytes) (a : Nat) (r : FssoInode) : Bytes :=
  let s := putWord32 s a r.size
  let s := putWord32 s (a + 4) r.created
  let s := putWord32 s (a + 8) r.modified
  let s := put s (a + 12) r.type
  let s := copyBytes s (a + 13) (fun i => r.reserved.toList.getD i 0) 3
  let s := putWords s (a + 16) r.direct.toList
  let s := putWord32 s (a + 64) r.indirect
  let s := putWord32 s (a + 68) r.doubleIndirect
  putWord32 s (a + 72) r.tripleIndirect

/-- `&inode_table[n]` for the contiguous table of the writer. -/
def inodeAddr (n : Nat) : Nat := inodeTable + inodeSize * n

/-- `&entries[i]` for the directory block that starts at `base`. -/
def entryAddr (base i : Nat) : Nat := base + dirEntrySize * i

/-- The writer's address of a record. -/
theorem inodeAddr_eq (n : Nat) : inodeAddr n = 3072 + 76 * n := rfl

/-- The address of an entry of a directory block. -/
theorem entryAddr_eq (base i : Nat) : entryAddr base i = base + 260 * i := rfl

/-- An inode record depends only on its 76 bytes. -/
theorem inodeAt_ext {s t : Bytes} {a b : Nat}
    (h : ∀ i, i < 76 → s (a + i) = t (b + i)) : inodeAt s a = inodeAt t b := by
  have hword : ∀ i, i + 4 ≤ 76 → word32 s (a + i) = word32 t (b + i) := by
    intro i hi
    apply word32_ext
    intro j hj
    simpa only [Nat.add_assoc] using h (i + j) (by omega)
  have hsize : word32 s a = word32 t b := hword 0 (by decide)
  have hreserved : ∀ i, i < 3 → s (a + 13 + i) = t (b + 13 + i) := by
    intro i hi
    simpa only [Nat.add_assoc] using h (13 + i) (by omega)
  have hdirect : ∀ i, i < 12 → word32 s (a + 16 + 4 * i) = word32 t (b + 16 + 4 * i) := by
    intro i hi
    simpa only [Nat.add_assoc] using hword (16 + 4 * i) (by omega)
  simp only [inodeAt, FssoInode.mk.injEq]
  refine ⟨hsize, hword 4 (by decide), hword 8 (by decide), h 12 (by decide), ?_, ?_,
    hword 64 (by decide), hword 68 (by decide), hword 72 (by decide)⟩
  · exact congrArg Vector.ofFn (funext fun i => hreserved i i.isLt)
  · exact congrArg Vector.ofFn (funext fun i => hdirect i i.isLt)

/-- **Record round trip.**  A stored inode record reads back field by field. -/
theorem inodeAt_putInode (s : Bytes) (a : Nat) (r : FssoInode) :
    inodeAt (putInode s a r) a = r := by
  have hlen : r.direct.toList.length = 12 := by simp
  have hreserved : ∀ i, i < 3 →
      putInode s a r (a + 13 + i) = r.reserved.toList.getD i 0 := by
    intro i hi
    simp only [putInode]
    rw [putWord32_of_out _ _ (by omega), putWord32_of_out _ _ (by omega),
      putWord32_of_out _ _ (by omega), putWords_of_out _ (by omega), copyBytes_apply,
      if_pos (by omega), Nat.add_sub_cancel_left]
  have hdirect : ∀ i, (hi : i < 12) →
      word32 (putInode s a r) (a + 16 + 4 * i) = r.direct[i] := by
    intro i hi
    simp only [putInode]
    rw [word32_putWord32_of_out _ _ (by omega), word32_putWord32_of_out _ _ (by omega),
      word32_putWord32_of_out _ _ (by omega), word32_putWords _ _ _ (by omega)]
    simp
  have htype : putInode s a r (a + 12) = r.type := by
    simp only [putInode]
    rw [putWord32_of_out _ _ (by omega), putWord32_of_out _ _ (by omega),
      putWord32_of_out _ _ (by omega), putWords_of_out _ (by omega),
      copyBytes_of_out _ _ (by omega), put_same]
  cases r with
  | mk size created modified type reserved direct indirect doubleIndirect tripleIndirect =>
      simp only [inodeAt, FssoInode.mk.injEq]
      refine ⟨?_, ?_, ?_, htype, ?_, ?_, ?_, ?_, ?_⟩
      · simp (disch := omega) only [putInode, word32_putWord32_of_out, word32_putWords_of_out,
          word32_copyBytes_of_out, word32_put_of_out, word32_putWord32]
      · simp (disch := omega) only [putInode, word32_putWord32_of_out, word32_putWords_of_out,
          word32_copyBytes_of_out, word32_put_of_out, word32_putWord32]
      · simp (disch := omega) only [putInode, word32_putWord32_of_out, word32_putWords_of_out,
          word32_copyBytes_of_out, word32_put_of_out, word32_putWord32]
      · ext i hi
        simp [hreserved i hi, hi]
      · ext i hi
        simp [hdirect i hi]
      · simp (disch := omega) only [putInode, word32_putWord32_of_out, word32_putWord32]
      · simp (disch := omega) only [putInode, word32_putWord32_of_out, word32_putWord32]
      · simp only [putInode, word32_putWord32]

end Fsso
