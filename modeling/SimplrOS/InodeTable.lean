import SimplrOS.FssoReader
import SimplrOS.Mkfsso

/-!
# Two layouts of the inode table

The writer indexes one contiguous array of 76-byte records.  The reader takes
13 records from each block and skips the 36 bytes that are left.  The two
addresses of inode `n` differ by 36 bytes for every whole block before it, so
the layouts agree exactly on the first 13 inodes.
-/

namespace Fsso

open ByteStore

/-- The reader's address runs ahead of the writer's by 36 bytes for each
completed block of 13 inodes. -/
theorem readerInodeAddr_eq_writer (n : UInt32) :
    readerInodeAddr n = inodeAddr n.toNat + 36 * (n.toNat / 13) := by
  rw [readerInodeAddr_eq, inodeAddr_eq]
  omega

/-- Reader and writer look at one address exactly for the thirteen records of the first block.
-/
theorem readerInodeAddr_eq_iff (n : UInt32) :
    readerInodeAddr n = inodeAddr n.toNat ↔ n.toNat < 13 := by
  rw [readerInodeAddr_eq_writer]
  omega

/-- Changing the size of a stored record changes at most its first four bytes. -/
theorem putInode_size_local (disk : Bytes) (a : Nat) (r : FssoInode) (v : UInt32) {x : Nat}
    (hx : x < a ∨ a + 4 ≤ x) :
    putInode disk a { r with size := v } x = putInode disk a r x := by
  have hsize : putWord32 disk a v x = putWord32 disk a r.size x := by
    rw [putWord32_of_out _ _ hx, putWord32_of_out _ _ hx]
  simp only [putInode, putWord32]
  apply putLe_congr_at
  apply putLe_congr_at
  apply putLe_congr_at
  apply putWords_congr_at
  apply copyBytes_congr_at
  apply put_congr_at
  apply putLe_congr_at
  apply putLe_congr_at
  exact hsize

/-- Reading inode `n` from a disk on which the writer stored record `r`. -/
theorem fssoReadInode_of_stored {dv : Drive} {disk : Bytes} {n : UInt32} {r : FssoInode}
    (t : Nat) {fs : FssoFilesystem} (out : FssoInode) (hn : n < fs.superblock.totalInodes)
    (hsound : dv.Sound) (hdisk : dv.disk = putInode disk (inodeAddr n.toNat) r) :
    fssoReadInode dv t fs n out =
      ⟨0, inodeAt (putInode disk (inodeAddr n.toNat) r) (readerInodeAddr n), t + 1⟩ := by
  rw [fssoReadInode_of_ok out hn (hsound t), hdisk]

/-- Past the first 13 inodes the reader's size field misses the writer's, so
two records that differ in size only cannot both be read back. -/
theorem stored_size_not_read {disk : Bytes} {n : UInt32} (r : FssoInode) (v : UInt32)
    (hn : 13 ≤ n.toNat) :
    (inodeAt (putInode disk (inodeAddr n.toNat) { r with size := v }) (readerInodeAddr n)).size =
      (inodeAt (putInode disk (inodeAddr n.toNat) r) (readerInodeAddr n)).size := by
  have haddr := readerInodeAddr_eq_writer n
  have hskip : 1 ≤ n.toNat / 13 := (Nat.one_le_div_iff (by decide)).mpr hn
  apply word32_congr
  intro x hlo _
  exact putInode_size_local disk _ r v (by omega)

/-- An inode record with every field zero. -/
def zeroInode : FssoInode := inodeAt (fun _ => 0) 0

/-- The mounted freshly formatted image. -/
def formattedFs : FssoFilesystem := ⟨superblockAt mkfssoFormat 0, 0⟩

/-- **Agreement of the two layouts.**  The reader's 76 bytes for inode `n` are
the writer's exactly when `n < 13`, and, whatever else is on the disk, every
record stored by the writer as element `n` is read back by `fsso_read_inode`
exactly when `n < 13`. -/
theorem inodeTable_agrees_iff (n : UInt32) :
    ((∀ x, (inodeAddr n.toNat ≤ x ∧ x < inodeAddr n.toNat + inodeSize) ↔
        (readerInodeAddr n ≤ x ∧ x < readerInodeAddr n + inodeSize)) ↔ n.toNat < 13) ∧
    ∀ (disk : Bytes) (fs : FssoFilesystem), n < fs.superblock.totalInodes →
      ((∀ (dv : Drive) (t : Nat) (r out : FssoInode), dv.Sound →
          dv.disk = putInode disk (inodeAddr n.toNat) r →
          (fssoReadInode dv t fs n out).ret = 0 ∧ (fssoReadInode dv t fs n out).out = r) ↔
        n.toNat < 13) := by
  constructor
  · rw [← readerInodeAddr_eq_iff]
    constructor
    · intro hsame
      have hlo := hsame (inodeAddr n.toNat)
      have hhi := hsame (readerInodeAddr n)
      simp only [inodeSize] at hlo hhi
      omega
    · intro heq x
      rw [heq]
  · intro disk fs hn
    constructor
    · intro hback
      apply Classical.byContradiction
      intro hge
      have hge' : 13 ≤ n.toNat := by omega
      let one : FssoInode := { zeroInode with size := 1 }
      let drive : FssoInode → Drive := fun r =>
        ⟨zeroMemory, putInode disk (inodeAddr n.toNat) r, fun _ => true⟩
      have hzero := (hback (drive zeroInode) 0 zeroInode zeroInode (fun _ => rfl) rfl).2
      have hone := (hback (drive one) 0 one zeroInode (fun _ => rfl) rfl).2
      rw [fssoReadInode_of_stored 0 _ hn (fun _ => rfl) rfl] at hzero hone
      have hsame : (inodeAt (putInode disk _ one) _).size = _ :=
        stored_size_not_read zeroInode 1 hge'
      have hsize : one.size = zeroInode.size :=
        (congrArg FssoInode.size hone).symm.trans (hsame.trans (congrArg FssoInode.size hzero))
      exact absurd hsize (by decide)
    · intro hlt dv t r out hsound hdisk
      rw [fssoReadInode_of_stored t out hn hsound hdisk, (readerInodeAddr_eq_iff n).mpr hlt,
        inodeAt_putInode]
      exact ⟨rfl, rfl⟩

/-- On a freshly formatted image the reader takes inode 20 from another place than the writer.
-/
theorem inodeTable_agrees_iff_formatted :
    (20 : UInt32) < formattedFs.superblock.totalInodes ∧
    ¬ ∀ (dv : Drive) (t : Nat) (r out : FssoInode), dv.Sound →
        dv.disk = putInode mkfssoFormat (inodeAddr 20) r →
        (fssoReadInode dv t formattedFs 20 out).ret = 0 ∧
          (fssoReadInode dv t formattedFs 20 out).out = r := by
  have hn : (20 : UInt32) < formattedFs.superblock.totalInodes := by decide
  refine ⟨hn, fun hall => ?_⟩
  have hlt := ((inodeTable_agrees_iff 20).2 mkfssoFormat formattedFs hn).mp hall
  exact absurd hlt (by decide)

/-- The drive holding the formatted image with `r` stored as inode 13. -/
def inode13Drive (r : FssoInode) : Drive :=
  ⟨zeroMemory, putInode mkfssoFormat (inodeAddr 13) r, fun _ => true⟩

/-- Inode 13 of the formatted image is stored with size 1 and read with size 0. -/
theorem inode13_size_lost :
    (13 : UInt32) < formattedFs.superblock.totalInodes ∧
    (fssoReadInode (inode13Drive { zeroInode with size := 1 }) 0 formattedFs 13 zeroInode).out.size
      = 0 ∧
    (fssoReadInode (inode13Drive { zeroInode with size := 1 }) 0 formattedFs 13 zeroInode).out ≠
      { zeroInode with size := 1 } := by
  have hn : (13 : UInt32) < formattedFs.superblock.totalInodes := by decide
  have hsound : (inode13Drive { zeroInode with size := 1 }).Sound := fun _ => rfl
  have hread := fssoReadInode_of_stored 0 zeroInode hn hsound rfl
  have hsize : (fssoReadInode (inode13Drive { zeroInode with size := 1 }) 0 formattedFs 13
      zeroInode).out.size = 0 := by
    rw [hread]
    decide
  refine ⟨hn, hsize, fun heq => ?_⟩
  rw [heq] at hsize
  exact absurd hsize (by decide)

end Fsso
