import SimplrOS.FssoLayout

/-!
# The kernel's file-system reader

The functions of `fsso.c`, over a drive whose reads may fail.  A call is run at
a *clock*: the number of `ahci_read` calls issued before it.  It answers its
return value, its out-parameter and the clock it leaves, so the reads it
performed are exactly those numbered from the first clock up to the second.

`read_block` drops the result of `ahci_read`.  After a failed read the functions
therefore go on with what the controller has left in the block buffer: what was
there before (the previous block or what the stack held), a part of the block, or
anything else.
-/

namespace Fsso

open ByteStore

/-- What the calls find in memory without having read it from the disk.  If the
`t`-th `ahci_read` fails, `residue t` makes of the old content of its buffer the one
that it leaves there; `stack t` is the prior content of the uninitialised block
buffer that the `t`-th read is the first to fill, and `staleInode` that of
uninitialised inode locals. -/
structure Garbage where
  residue : Nat → Bytes → Bytes
  stack : Nat → Bytes
  staleInode : FssoInode

/-- Zeros, and failed reads that leave their buffer alone. -/
def zeroMemory : Garbage := ⟨fun _ buffer => buffer, fun _ _ => 0, inodeAt (fun _ => 0) 0⟩

/-- A drive and the environment of the calls made on it.  `fate t` says whether the
`t`-th `ahci_read` succeeds.  Every pattern is allowed; those that the driver can show,
which ends with an error of the device, are among them. -/
structure Drive extends Garbage where
  disk : Bytes
  fate : Nat → Bool

/-- Every read of the drive succeeds. -/
def Drive.Sound (dv : Drive) : Prop := ∀ t, dv.fate t = true

/-- Return value, out-parameter and clock after a call. -/
structure Reply (α : Type) where
  ret : Int
  out : α
  clock : Nat

/-- `ahci_read` as `fsso.c` sees it.  What a failed read leaves in the sectors of the
buffer is open. -/
def Drive.ahciRead (dv : Drive) (t : Nat) (lba : UInt64) (count : UInt32)
    (buffer : Bytes) : Int × Bytes :=
  if dv.fate t then
    (0, copyBytes buffer 0 (fun i => dv.disk (512 * lba.toNat + i)) (512 * count.toNat))
  else (-1, copyBytes buffer 0 (dv.residue t buffer) (512 * count.toNat))

/-- The result of `ahci_read` is dropped. -/
def readBlock (dv : Drive) (t : Nat) (blockNum : UInt32) (buffer : Bytes) : Bytes :=
  let lba := blockNum.toUInt64 * 2
  (dv.ahciRead t lba 2 buffer).2

/-- `fsso_mount`: the superblock is read from block 0 and refused without its magic number. -/
def fssoMount (dv : Drive) (t : Nat) (fs : FssoFilesystem) : Reply FssoFilesystem :=
  let buffer := readBlock dv t 0 (dv.stack t)
  let sb := superblockAt buffer 0
  if sb.magic ≠ fssoMagic then ⟨-1, fs, t + 1⟩
  else ⟨0, { superblock := sb, diskStartBlock := 0 }, t + 1⟩

/-- `fsso_read_inode`.  The table is read as whole blocks of 13 records. -/
def fssoReadInode (dv : Drive) (t : Nat) (fs : FssoFilesystem) (inodeNum : UInt32)
    (out : FssoInode) : Reply FssoInode :=
  if inodeNum ≥ fs.superblock.totalInodes then ⟨-1, out, t⟩
  else
    let inodesPerBlock : UInt32 := 1024 / 76
    let blockNum := 3 + inodeNum / inodesPerBlock
    let offset := inodeNum % inodesPerBlock
    let buffer := readBlock dv t blockNum (dv.stack t)
    ⟨0, inodeAt buffer (inodeSize * offset.toNat), t + 1⟩

/-- The comparison loop of `fsso_find_in_dir` from index `k` on, where `pos` is
the address of `entries[j].name[k]` and the list is `name` from `k` on; the end
of the list is the terminating NUL. -/
def nameMatches (buffer : Bytes) (pos : Nat) : List UInt8 → Bool
  | [] => buffer pos == 0
  | c :: rest =>
      if buffer pos = 0 ∧ c = 0 then true
      else if buffer pos ≠ c then false
      else nameMatches buffer (pos + 1) rest

/-- The slot loop of `fsso_find_in_dir`: the inode field of the first entry in
use whose name matches. -/
def findEntry (buffer : Bytes) (name : List UInt8) : Nat → Nat → Option UInt32
  | _, 0 => none
  | j, fuel+1 =>
      if word32 buffer (entryAddr 0 j) = 0 then findEntry buffer name (j + 1) fuel
      else if nameMatches buffer (entryAddr 0 j + 4) name then
        some (word32 buffer (entryAddr 0 j))
      else findEntry buffer name (j + 1) fuel

/-- The block loop of `fsso_find_in_dir` over the remaining direct pointers. -/
def scanDir (dv : Drive) (name : List UInt8) : List UInt32 → Nat → Bytes → Option UInt32 × Nat
  | [], t, _ => (none, t)
  | b :: rest, t, buffer =>
      if b = 0 then (none, t)
      else
        let buffer := readBlock dv t b buffer
        match findEntry buffer name 0 entriesPerBlock with
        | some m => (some m, t + 1)
        | none => scanDir dv name rest (t + 1) buffer

/-- `fsso_find_in_dir`: the inode must be a directory, and its blocks are searched in order. -/
def fssoFindInDir (dv : Drive) (t : Nat) (fs : FssoFilesystem) (dirInode : UInt32)
    (name : List UInt8) (out : UInt32) : Reply UInt32 :=
  let inode := fssoReadInode dv t fs dirInode dv.staleInode
  if inode.ret ≠ 0 then ⟨-1, out, inode.clock⟩
  else if inode.out.type ≠ fssoTypeDir then ⟨-2, out, inode.clock⟩
  else
    match scanDir dv name inode.out.direct.toList inode.clock (dv.stack inode.clock) with
    | (some m, t') => ⟨0, m, t'⟩
    | (none, t') => ⟨-3, out, t'⟩

/-- The block loop of `fsso_read_file` over the remaining direct pointers. -/
def copyBlocks (dv : Drive) (maxSize : UInt32) :
    List UInt32 → Nat → Bytes → UInt32 → Bytes → UInt32 × Bytes × Nat
  | [], t, _, bytesRead, out => (bytesRead, out, t)
  | b :: rest, t, buffer, bytesRead, out =>
      if b = 0 then (bytesRead, out, t)
      else if bytesRead ≥ maxSize then (bytesRead, out, t)
      else
        let buffer := readBlock dv t b buffer
        let toCopy : UInt32 := if bytesRead + 1024 > maxSize then maxSize - bytesRead else 1024
        copyBlocks dv maxSize rest (t + 1) buffer (bytesRead + toCopy)
          (copyBytes out bytesRead.toNat buffer toCopy.toNat)

/-- `fsso_read_file`.  The size of the inode is not looked at. -/
def fssoReadFile (dv : Drive) (t : Nat) (fs : FssoFilesystem) (inodeNum : UInt32)
    (out : Bytes) (maxSize : UInt32) : Reply Bytes :=
  let inode := fssoReadInode dv t fs inodeNum dv.staleInode
  if inode.ret ≠ 0 then ⟨-1, out, inode.clock⟩
  else if inode.out.type ≠ fssoTypeFile then ⟨-2, out, inode.clock⟩
  else
    let r := copyBlocks dv maxSize inode.out.direct.toList inode.clock
      (dv.stack inode.clock) 0 out
    ⟨r.1.toNat, r.2.1, r.2.2⟩

/-! ## What one block read delivers -/

/-- A block buffer after a read, byte by byte. -/
theorem readBlock_apply (dv : Drive) (t : Nat) (b : UInt32) (buffer : Bytes) (i : Nat) :
    readBlock dv t b buffer i =
      if i < 1024 then
        if dv.fate t then dv.disk (1024 * b.toNat + i) else dv.residue t buffer i
      else buffer i := by
  have hb := b.toNat_lt
  have hlba : 512 * (b.toUInt64 * 2).toNat = 1024 * b.toNat := by
    simp only [UInt64.toNat_mul, UInt32.toNat_toUInt64, UInt64.reduceToNat]
    omega
  have hcount : 512 * (2 : UInt32).toNat = 1024 := rfl
  simp only [readBlock, Drive.ahciRead, hlba, hcount]
  by_cases hfate : dv.fate t = true
  · simp [hfate, copyBytes_apply]
  · simp [hfate, copyBytes_apply]

/-- A read that succeeds delivers the block. -/
theorem readBlock_of_ok {dv : Drive} {t i : Nat} (b : UInt32) (buffer : Bytes)
    (hfate : dv.fate t = true) (hi : i < 1024) :
    readBlock dv t b buffer i = dv.disk (1024 * b.toNat + i) := by
  rw [readBlock_apply, if_pos hi, if_pos hfate]

/-- A read that fails leaves its residue. -/
theorem readBlock_of_failed {dv : Drive} {t i : Nat} (b : UInt32) (buffer : Bytes)
    (hfate : dv.fate t = false) (hi : i < 1024) :
    readBlock dv t b buffer i = dv.residue t buffer i := by
  rw [readBlock_apply, if_pos hi, if_neg (by simp [hfate])]

/-- Where the reader looks for inode `n`. -/
def readerInodeAddr (n : UInt32) : Nat :=
  fssoBlockSize * (3 + n / (1024 / 76)).toNat + inodeSize * (n % (1024 / 76)).toNat

/-- The quotient form of the address: one whole block for every 13 inodes. -/
theorem readerInodeAddr_eq (n : UInt32) :
    readerInodeAddr n = 3072 + 1024 * (n.toNat / 13) + 76 * (n.toNat % 13) := by
  have hn := n.toNat_lt
  simp only [readerInodeAddr, fssoBlockSize, inodeSize, UInt32.toNat_add, UInt32.toNat_div,
    UInt32.toNat_mod, UInt32.reduceToNat, Nat.reduceDiv]
  omega

/-- A successful inode read returns the record at the reader's address. -/
theorem fssoReadInode_of_ok {dv : Drive} {t : Nat} {fs : FssoFilesystem} {n : UInt32}
    (out : FssoInode) (hn : n < fs.superblock.totalInodes) (hfate : dv.fate t = true) :
    fssoReadInode dv t fs n out = ⟨0, inodeAt dv.disk (readerInodeAddr n), t + 1⟩ := by
  have hoffset : (n % (1024 / 76)).toNat = n.toNat % 13 := rfl
  have hread : inodeAt (readBlock dv t (3 + n / (1024 / 76)) (dv.stack t))
      (inodeSize * (n % (1024 / 76)).toNat) = inodeAt dv.disk (readerInodeAddr n) := by
    apply inodeAt_ext
    intro i hi
    have hin : inodeSize * (n % (1024 / 76)).toNat + i < 1024 := by
      rw [hoffset, inodeSize]
      omega
    rw [readBlock_of_ok _ _ hfate hin, readerInodeAddr, Nat.add_assoc]
  have hguard : ¬ n ≥ fs.superblock.totalInodes := UInt32.not_le.mpr hn
  rw [fssoReadInode, if_neg hguard]
  simp only [hread]

end Fsso
