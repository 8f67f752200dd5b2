import SimplrOS.FssoReader

/-!
# Reading a file with every read succeeding

On a sound drive the block loop of `fsso_read_file` returns the bytes of the
leading nonzero direct pointers, block after block, cut to `max_size`.  The size
field of the inode plays no part in it.
-/

namespace Fsso

open ByteStore

/-- The direct pointers before the first zero one. -/
def leadBlocks (ptrs : List UInt32) : List UInt32 := ptrs.takeWhile (· ≠ 0)

theorem length_leadBlocks_cons {b : UInt32} (hb : b ≠ 0) (rest : List UInt32) :
    (leadBlocks (b :: rest)).length = (leadBlocks rest).length + 1 := by
  simp [leadBlocks, hb]

/-- Byte `i` of the concatenation of the blocks named by `ptrs`. -/
def fileByte (disk : Bytes) (ptrs : List UInt32) (i : Nat) : UInt8 :=
  disk (1024 * (ptrs.getD (i / 1024) 0).toNat + i % 1024)

theorem fileByte_cons (disk : Bytes) (b : UInt32) (rest : List UInt32) (i : Nat) :
    fileByte disk (b :: rest) (1024 + i) = fileByte disk rest i := by
  have hdiv : (1024 + i) / 1024 = i / 1024 + 1 := by omega
  have hmod : (1024 + i) % 1024 = i % 1024 := by omega
  rw [fileByte, fileByte, hdiv, hmod, List.getD_cons_succ]

/-- One round of the loop advances the count by a block or up to the limit. -/
theorem nextCount {q : Nat} {bytesRead maxSize : UInt32} (hq : q < 12)
    (hcount : bytesRead.toNat = min (1024 * q) maxSize.toNat) (hmore : ¬ bytesRead ≥ maxSize) :
    let toCopy : UInt32 := if bytesRead + 1024 > maxSize then maxSize - bytesRead else 1024
    bytesRead.toNat = 1024 * q ∧ toCopy.toNat ≤ 1024 ∧
      toCopy.toNat = min (1024 * (q + 1)) maxSize.toNat - 1024 * q ∧
      (bytesRead + toCopy).toNat = min (1024 * (q + 1)) maxSize.toNat := by
  have hmax := maxSize.toNat_lt
  have hlt := UInt32.lt_iff_toNat_lt.mp (UInt32.not_le.mp hmore)
  have hsum : (bytesRead + 1024).toNat = bytesRead.toNat + 1024 := by
    rw [UInt32.toNat_add]
    simp only [UInt32.reduceToNat]
    omega
  have hle : bytesRead ≤ maxSize := UInt32.le_iff_toNat_le.mpr (by omega)
  have hsub : (maxSize - bytesRead).toNat = maxSize.toNat - bytesRead.toNat :=
    UInt32.toNat_sub_of_le _ _ hle
  dsimp only
  split
  · rename_i hclip
    have hgt := UInt32.lt_iff_toNat_lt.mp hclip
    rw [hsum] at hgt
    rw [UInt32.toNat_add, hsub]
    omega
  · rename_i hfull
    have hle' := UInt32.le_iff_toNat_le.mp (UInt32.not_lt.mp hfull)
    rw [hsum] at hle'
    rw [hsum]
    simp only [UInt32.reduceToNat]
    omega

/-- **Block loop.**  Starting with `q` blocks read, the loop ends with the bytes
of the remaining leading blocks appended, cut to `max_size`. -/
theorem copyBlocks_sound {dv : Drive} (hsound : dv.Sound) (maxSize : UInt32) (ptrs : List UInt32)
    (q t : Nat) (buffer out : Bytes) (bytesRead : UInt32) (hroom : q + ptrs.length ≤ 12)
    (hcount : bytesRead.toNat = min (1024 * q) maxSize.toNat) :
    let r := copyBlocks dv maxSize ptrs t buffer bytesRead out
    r.1.toNat = min (1024 * (q + (leadBlocks ptrs).length)) maxSize.toNat ∧
    ∀ i, r.2.1 i = if bytesRead.toNat ≤ i ∧ i < r.1.toNat
      then fileByte dv.disk ptrs (i - 1024 * q) else out i := by
  induction ptrs generalizing q t buffer bytesRead out with
  | nil =>
      refine ⟨by simpa [copyBlocks, leadBlocks] using hcount, fun i => ?_⟩
      rw [if_neg (by simp only [copyBlocks]; omega)]
      rfl
  | cons b rest ih =>
      rw [List.length_cons] at hroom
      by_cases hb : b = 0
      · refine ⟨by simpa [copyBlocks, leadBlocks, hb] using hcount, fun i => ?_⟩
        simp only [copyBlocks, hb, if_true]
        rw [if_neg (by omega)]
      · have hlead := length_leadBlocks_cons hb rest
        by_cases hmore : bytesRead ≥ maxSize
        · have hle := UInt32.le_iff_toNat_le.mp hmore
          simp only [copyBlocks, if_neg hb, if_pos hmore, hlead]
          refine ⟨by omega, fun i => ?_⟩
          rw [if_neg (by omega)]
        · obtain ⟨hstart, hchunk, hcopy, hnext⟩ := nextCount (by omega) hcount hmore
          simp only [copyBlocks, if_neg hb, if_neg hmore]
          generalize (if bytesRead + 1024 > maxSize then maxSize - bytesRead else 1024) = toCopy
            at hchunk hcopy hnext ⊢
          have hrec := ih (q + 1) (t + 1) (readBlock dv t b buffer)
            (copyBytes out bytesRead.toNat (readBlock dv t b buffer) toCopy.toNat)
            (bytesRead + toCopy) (by omega) hnext
          dsimp only at hrec
          generalize copyBlocks dv maxSize rest (t + 1) (readBlock dv t b buffer)
            (bytesRead + toCopy)
            (copyBytes out bytesRead.toNat (readBlock dv t b buffer) toCopy.toNat) = r at hrec ⊢
          obtain ⟨hret, hbytes⟩ := hrec
          refine ⟨by rw [hret, hlead]; omega, fun i => ?_⟩
          rw [hbytes i, hnext]
          by_cases hlate : min (1024 * (q + 1)) maxSize.toNat ≤ i ∧ i < r.1.toNat
          · have hblock : i - 1024 * q = 1024 + (i - 1024 * (q + 1)) := by omega
            rw [if_pos hlate, if_pos (by omega), hblock, fileByte_cons]
          · rw [if_neg hlate, copyBytes_apply]
            by_cases hhere : bytesRead.toNat ≤ i ∧ i < bytesRead.toNat + toCopy.toNat
            · have hzero : (i - 1024 * q) / 1024 = 0 := by omega
              have hmod : (i - 1024 * q) % 1024 = i - bytesRead.toNat := by omega
              rw [if_pos hhere, if_pos (by omega), fileByte, hzero, hmod, List.getD_cons_zero,
                readBlock_of_ok b buffer (hsound t) (by omega)]
            · rw [if_neg hhere, if_neg (by omega)]

/-- What `fsso_read_file` returns on a sound drive for a file inode. -/
theorem fssoReadFile_sound {dv : Drive} (hsound : dv.Sound) {t : Nat} {fs : FssoFilesystem}
    {n : UInt32} (hn : n < fs.superblock.totalInodes) (out : Bytes) (maxSize : UInt32)
    (hfile : (inodeAt dv.disk (readerInodeAddr n)).type = fssoTypeFile) :
    let ptrs := (inodeAt dv.disk (readerInodeAddr n)).direct.toList
    let count := min (1024 * (leadBlocks ptrs).length) maxSize.toNat
    (fssoReadFile dv t fs n out maxSize).ret = count ∧
    ∀ i, (fssoReadFile dv t fs n out maxSize).out i =
      if i < count then fileByte dv.disk ptrs i else out i := by
  have hread := fssoReadInode_of_ok dv.staleInode hn (hsound t)
  have hlen : (inodeAt dv.disk (readerInodeAddr n)).direct.toList.length = 12 := by simp
  simp only [fssoReadFile, hread, ne_eq, not_true_eq_false, if_false, hfile]
  obtain ⟨hret, hbytes⟩ := copyBlocks_sound hsound maxSize
    (inodeAt dv.disk (readerInodeAddr n)).direct.toList 0 (t + 1) (dv.stack (t + 1)) out 0
    (by omega) (by simp)
  simp only [Nat.zero_add, Nat.mul_zero, Nat.sub_zero] at hret hbytes
  refine ⟨by rw [hret], fun i => ?_⟩
  rw [hbytes i, hret]
  simp

/-- What `fsso_mount` returns on a sound drive with a valid superblock. -/
theorem fssoMount_sound {dv : Drive} (hsound : dv.Sound) (t : Nat) (fs : FssoFilesystem)
    (hmagic : word64 dv.disk 0 = fssoMagic) :
    (fssoMount dv t fs).ret = 0 ∧
    (fssoMount dv t fs).out.superblock.totalInodes = word32 dv.disk 16 := by
  have hblock : ∀ i, i < 1024 → readBlock dv t 0 (dv.stack t) i = dv.disk i := by
    intro i hi
    rw [readBlock_of_ok 0 _ (hsound t) hi]
    simp
  have hread : (superblockAt (readBlock dv t 0 (dv.stack t)) 0).magic = fssoMagic :=
    (word64_congr fun x _ _ => hblock x (by omega)).trans hmagic
  have htotal : (superblockAt (readBlock dv t 0 (dv.stack t)) 0).totalInodes =
      word32 dv.disk 16 := word32_congr fun x _ _ => hblock x (by omega)
  simp [fssoMount, hread, htotal]

end Fsso
