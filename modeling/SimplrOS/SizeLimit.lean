import SimplrOS.ImageRuns

/-!
# The size limit of a file

A record has 12 direct pointers and `allocated_blocks` has 12 elements, but the
block loop of `fsso_add_file` stops only at the number of blocks it needs or at
the end of the disk.  A size of more than 12 blocks is therefore refused only
when the disk has at most 12 clear blocks left.  From `2 ^ 32 - 1023` on the
rounding wraps, no block is needed, and the record is written with the whole
size.

The disk is arbitrary here, so the mark of an inode past 8191 may lie in the
block bitmap; the clear blocks are counted after it.
-/

namespace Fsso

open ByteStore

/-- The record a call stores, if it comes that far. -/
def AddCall.record (c : AddCall) (disk : Bytes) : Option FssoInode :=
  match freeInode disk with
  | none => none
  | some n =>
      let disk := setBit disk inodeBitmap n
      let needed := blocksNeeded c.size
      match claimBlocks needed ((sbTotalBlocks disk).toNat - fssoFirstDataBlock)
          fssoFirstDataBlock disk [] with
      | none => none
      | some (allocated, disk) =>
          if allocated.length < needed then none
          else
            let disk := writeData c.size c.data 0 allocated disk
            let disk := writeInode disk n c.size allocated
            some (inodeAt disk (inodeAddr n))

/-- The number of nonzero direct pointers of a record. -/
def FssoInode.blocks (r : FssoInode) : Nat := (r.direct.toList.filter (· ≠ 0)).length

/-- The limit holds for a call: no array is overrun, a size of more than 12
blocks is refused, and a stored record has pointers for its whole size. -/
structure SizeEnforced (disk : Bytes) (c : AddCall) : Prop where
  defined : c.run disk ≠ none
  refused : fssoDirectBlocks * fssoBlockSize < c.size.toNat →
    ∀ r disk', c.run disk = some (r, disk') → r = -1
  covered : ∀ r, c.record disk = some r → r.type = fssoTypeFile →
    r.size.toNat ≤ fssoBlockSize * r.blocks

/-- The data blocks that are clear once inode `n` is marked. -/
def clearData (disk : Bytes) (n : Nat) : List Nat :=
  clearFrom (setBit disk inodeBitmap n) blockBitmap fssoFirstDataBlock
    ((sbTotalBlocks (setBit disk inodeBitmap n)).toNat - fssoFirstDataBlock)

/-- The calls that keep to the limit: no inode is free, the size is in range, or
it is too big without wrapping and the disk is nearly full. -/
def WithinLimit (disk : Bytes) (c : AddCall) : Prop :=
  ∀ n, freeInode disk = some n →
    c.size.toNat ≤ fssoDirectBlocks * fssoBlockSize ∨
    (c.size.toNat + (fssoBlockSize - 1) < 4294967296 ∧
      (clearData disk n).length ≤ fssoDirectBlocks)

/-! ## Sizes near the end of `uint32_t` -/

/-- Once the rounding wraps, no block is needed. -/
theorem blocksNeeded_of_wrap {size : UInt32} (h : 4294967296 ≤ size.toNat + 1023) :
    blocksNeeded size = 0 := by
  have hlt := size.toNat_lt
  have hsum : (size + 1024 - 1).toNat = size.toNat + 1023 - 4294967296 := by
    simp only [UInt32.toNat_sub, UInt32.toNat_add, UInt32.reduceToNat]
    omega
  have hunit : (1024 : UInt32).toNat = 1024 := rfl
  rw [blocksNeeded, UInt32.toNat_div, hsum, hunit]
  omega

/-! ## The record -/

/-- The record of a call, in terms of the stages. -/
theorem AddCall.record_of_free {disk : Bytes} {n : Nat} (c : AddCall)
    (hn : freeInode disk = some n) :
    c.record disk =
      let bs := chosenBlocks (setBit disk inodeBitmap n) c.size
      if bs.length ≤ 12 then
        if bs.length < blocksNeeded c.size then none
        else some (inodeAt (filledDisk disk n bs c.data c.size) (inodeAddr n))
      else none := by
  have hclaim := claimBlocks_eq (blocksNeeded c.size)
    ((sbTotalBlocks (setBit disk inodeBitmap n)).toNat - fssoFirstDataBlock)
    fssoFirstDataBlock (setBit disk inodeBitmap n) [] (by simp)
  simp only [List.length_nil, Nat.sub_zero, Nat.zero_add, List.nil_append] at hclaim
  rw [← chosenBlocks] at hclaim
  simp only [AddCall.record, hn, hclaim]
  by_cases hroom : (chosenBlocks (setBit disk inodeBitmap n) c.size).length ≤ 12
  · simp only [if_pos hroom]
    rfl
  · simp only [if_neg hroom]

theorem length_chosenBlocks (disk : Bytes) (n : Nat) (size : UInt32) :
    (chosenBlocks (setBit disk inodeBitmap n) size).length =
      min (blocksNeeded size) (clearData disk n).length := by
  rw [chosenBlocks, List.length_take]
  rfl

/-- At least the collected blocks are nonzero pointers. -/
theorem blocks_of_writeInode (disk : Bytes) (n : Nat) (size : UInt32) {bs : List Nat}
    (hlen : bs.length ≤ 12) (hbs : ∀ b ∈ bs, 0 < b ∧ b < 4294967296) :
    bs.length ≤ (inodeAt (writeInode disk n size bs) (inodeAddr n)).blocks := by
  let ptrs := (inodeAt (writeInode disk n size bs) (inodeAddr n)).direct.toList
  have hptrs : ptrs.length = 12 := by simp [ptrs]
  have hlead : ∀ p ∈ ptrs.take bs.length, decide (p ≠ 0) = true := by
    intro p hp
    obtain ⟨j, hj, rfl⟩ := List.getElem_of_mem hp
    have hjlen : j < bs.length := by
      rw [List.length_take] at hj
      omega
    have hpointer := pointer_writeInode disk n size bs j
    rw [dif_pos hjlen, pointer] at hpointer
    have helem : (ptrs.take bs.length)[j] = UInt32.ofNat bs[j] := by
      rw [List.getElem_take, ← hpointer]
      simp [ptrs, inodeAt]
    obtain ⟨hpos, hlt⟩ := hbs _ (List.getElem_mem hjlen)
    rw [helem, decide_eq_true_eq]
    exact ofNat_ne_zero (by omega) (by omega)
  have hall : (ptrs.take bs.length).filter (· ≠ 0) = ptrs.take bs.length :=
    List.filter_eq_self.mpr hlead
  have hsplit : (ptrs.filter (· ≠ 0)).length =
      ((ptrs.take bs.length).filter (· ≠ 0)).length +
        ((ptrs.drop bs.length).filter (· ≠ 0)).length := by
    rw [← List.length_append, ← List.filter_append, List.take_append_drop]
  have hcount : (ptrs.take bs.length).length = bs.length := by
    rw [List.length_take]
    omega
  change bs.length ≤ (ptrs.filter (· ≠ 0)).length
  rw [hsplit, hall, hcount]
  omega

theorem FssoInode.blocks_le (r : FssoInode) : r.blocks ≤ 12 := by
  have hle : (r.direct.toList.filter (· ≠ 0)).length ≤ r.direct.toList.length :=
    List.length_filter_le _ _
  have hlen : r.direct.toList.length = 12 := by simp
  rw [FssoInode.blocks]
  omega

/-! ## When the limit holds -/

section Call

variable {disk : Bytes} {n : Nat} {c : AddCall}

theorem sizeEnforced_of_noInode (hnone : freeInode disk = none) : SizeEnforced disk c where
  defined := by simp [AddCall.run, fssoAddFile, hnone]
  refused := by
    intro _ r disk' hrun
    simp only [AddCall.run, fssoAddFile, hnone, Option.some.injEq, Prod.mk.injEq] at hrun
    exact hrun.1.symm
  covered := by
    intro r hrecord
    simp [AddCall.record, hnone] at hrecord

/-- A size in range needs at most 12 blocks, and its record points to them. -/
theorem sizeEnforced_of_small (hn : freeInode disk = some n) (hsize : c.size.toNat ≤ 12 * 1024) :
    SizeEnforced disk c := by
  have hneeded := blocksNeeded_eq (show c.size.toNat + 1023 < 4294967296 by omega)
  have hcount := length_chosenBlocks disk n c.size
  have hroom : (chosenBlocks (setBit disk inodeBitmap n) c.size).length ≤ 12 := by omega
  refine ⟨?_, fun hbig => by simp only [fssoDirectBlocks, fssoBlockSize] at hbig; omega, ?_⟩
  · rw [AddCall.run, fssoAddFile_of_free _ _ _ hn]
    simp only [if_pos hroom]
    split <;> simp
  · intro r hrecord _
    rw [c.record_of_free hn] at hrecord
    simp only [if_pos hroom] at hrecord
    split at hrecord
    · cases hrecord
    · rename_i hfound
      cases hrecord
      have hrange : ∀ b ∈ chosenBlocks (setBit disk inodeBitmap n) c.size,
          0 < b ∧ b < 4294967296 := by
        intro b hb
        obtain ⟨hlo, hhi, _⟩ := mem_clearFrom.mp (List.mem_of_mem_take hb)
        have htotal := (sbTotalBlocks (setBit disk inodeBitmap n)).toNat_lt
        have hfirst : fssoFirstDataBlock = 11 := rfl
        omega
      have hblocks := blocks_of_writeInode (writeData c.size c.data 0
        (chosenBlocks (setBit disk inodeBitmap n) c.size)
        (markedDisk disk n (chosenBlocks (setBit disk inodeBitmap n) c.size))) n c.size hroom hrange
      have hsizeField : (inodeAt (filledDisk disk n (chosenBlocks (setBit disk inodeBitmap n)
          c.size) c.data c.size) (inodeAddr n)).size = c.size := writeInode_size _ _ _ _
      have hblock : fssoBlockSize = 1024 := rfl
      rw [hsizeField, hblock]
      rw [← filledDisk] at hblocks
      omega

/-- A size out of range is refused when the blocks run out before the array. -/
theorem sizeEnforced_of_full (hn : freeInode disk = some n) (hsize : 12 * 1024 < c.size.toNat)
    (hwrap : c.size.toNat + 1023 < 4294967296) (hfull : (clearData disk n).length ≤ 12) :
    SizeEnforced disk c := by
  have hneeded := blocksNeeded_eq hwrap
  have hcount := length_chosenBlocks disk n c.size
  have hroom : (chosenBlocks (setBit disk inodeBitmap n) c.size).length ≤ 12 := by omega
  have hshort : (chosenBlocks (setBit disk inodeBitmap n) c.size).length <
      blocksNeeded c.size := by omega
  have hrun : c.run disk = some (-1, markedDisk disk n
      (chosenBlocks (setBit disk inodeBitmap n) c.size)) := by
    rw [AddCall.run, fssoAddFile_of_free _ _ _ hn]
    simp only [if_pos hroom, if_pos hshort]
  refine ⟨by simp [hrun], ?_, ?_⟩
  · intro _ r disk' hr
    rw [hrun] at hr
    cases hr
    rfl
  · intro r hrecord
    rw [c.record_of_free hn] at hrecord
    simp only [if_pos hroom, if_pos hshort] at hrecord
    cases hrecord

/-- A thirteenth clear block is stored past the end of `allocated_blocks`. -/
theorem run_of_overrun (hn : freeInode disk = some n) (hsize : 12 * 1024 < c.size.toNat)
    (hwrap : c.size.toNat + 1023 < 4294967296) (hclear : 12 < (clearData disk n).length) :
    c.run disk = none := by
  have hneeded := blocksNeeded_eq hwrap
  have hcount := length_chosenBlocks disk n c.size
  have hroom : ¬ (chosenBlocks (setBit disk inodeBitmap n) c.size).length ≤ 12 := by omega
  rw [AddCall.run, fssoAddFile_of_free _ _ _ hn]
  simp only [if_neg hroom]

/-- A wrapped size gets a record without a block for it. -/
theorem not_covered_of_wrap (hn : freeInode disk = some n)
    (hwrap : 4294967296 ≤ c.size.toNat + 1023) :
    ∃ r, c.record disk = some r ∧ r.type = fssoTypeFile ∧
      ¬ r.size.toNat ≤ fssoBlockSize * r.blocks := by
  have hneeded := blocksNeeded_of_wrap hwrap
  have hcount := length_chosenBlocks disk n c.size
  have hroom : (chosenBlocks (setBit disk inodeBitmap n) c.size).length ≤ 12 := by omega
  have hfound : ¬ (chosenBlocks (setBit disk inodeBitmap n) c.size).length <
      blocksNeeded c.size := by omega
  refine ⟨inodeAt (filledDisk disk n (chosenBlocks (setBit disk inodeBitmap n) c.size) c.data
    c.size) (inodeAddr n), ?_, writeInode_type _ _ _ _, ?_⟩
  · rw [c.record_of_free hn]
    simp only [if_pos hroom, if_neg hfound]
  · have hsizeField : (inodeAt (filledDisk disk n (chosenBlocks (setBit disk inodeBitmap n)
        c.size) c.data c.size) (inodeAddr n)).size = c.size := writeInode_size _ _ _ _
    have hle := FssoInode.blocks_le (inodeAt (filledDisk disk n
      (chosenBlocks (setBit disk inodeBitmap n) c.size) c.data c.size) (inodeAddr n))
    have hblock : fssoBlockSize = 1024 := rfl
    rw [hsizeField, hblock]
    omega

end Call

/-- **The size limit.**  A call keeps to the limit exactly when it finds no
inode, its size is in range, or its size does not wrap and the disk runs out of
clear blocks before the array does. -/
theorem sizeEnforced_iff (disk : Bytes) (c : AddCall) :
    SizeEnforced disk c ↔ WithinLimit disk c := by
  have hlimit : fssoDirectBlocks * fssoBlockSize = 12 * 1024 := rfl
  have hround : fssoBlockSize - 1 = 1023 := rfl
  constructor
  · intro henforced n hn
    rw [hlimit, hround]
    by_cases hsize : c.size.toNat ≤ 12 * 1024
    · exact Or.inl hsize
    · by_cases hwrap : c.size.toNat + 1023 < 4294967296
      · refine Or.inr ⟨hwrap, ?_⟩
        apply Classical.byContradiction
        intro hclear
        simp only [fssoDirectBlocks] at hclear
        exact henforced.defined (run_of_overrun hn (by omega) hwrap (by omega))
      · obtain ⟨r, hrecord, htype, hbad⟩ := not_covered_of_wrap (c := c) hn (by omega)
        exact absurd (henforced.covered r hrecord htype) hbad
  · intro hwithin
    cases hn : freeInode disk with
    | none => exact sizeEnforced_of_noInode hn
    | some n =>
        have hcase := hwithin n hn
        rw [hlimit, hround] at hcase
        by_cases hsize : c.size.toNat ≤ 12 * 1024
        · exact sizeEnforced_of_small hn hsize
        · obtain hsmall | ⟨hwrap, hfull⟩ := hcase
          · exact absurd hsmall hsize
          · exact sizeEnforced_of_full hn (by omega) hwrap hfull

/-- A file of 13 blocks. -/
def thirteenBlocks : AddCall := ⟨[98, 105, 103], fun _ => 0, 13 * 1024⟩

/-- A file whose size rounds up past the end of `uint32_t`. -/
def wrappedSize : AddCall := ⟨[98, 105, 103], fun _ => 0, 0xFFFFFFFF⟩

/-- On the formatted image the first overruns the array, and the second is
accepted with no block at all. -/
theorem mkfssoFormat_not_enforced :
    thirteenBlocks.run mkfssoFormat = none ∧
      ¬ SizeEnforced mkfssoFormat thirteenBlocks ∧ ¬ SizeEnforced mkfssoFormat wrappedSize := by
  have hn : freeInode mkfssoFormat = some 1 := by decide
  have hclear : (clearData mkfssoFormat 1).length = 4084 := by
    have htotal : (sbTotalBlocks (setBit mkfssoFormat inodeBitmap 1)).toNat = 4096 := by decide
    have hset : ∀ j, j < 11 → bit (setBit mkfssoFormat inodeBitmap 1) blockBitmap j = true := by
      intro j hj
      rw [setBit_inode_blockBit _ (by omega)]
      exact Layout.of_format.reserved j (by omega)
    have hsame : clearCount (setBit mkfssoFormat inodeBitmap 1) blockBitmap 4096 =
        clearCount mkfssoFormat blockBitmap 4096 :=
      clearCount_congr fun i _ => setBit_inode_blockBit _ (by omega)
    rw [clearData, htotal, clearFrom_length (by decide) hset, hsame, mkfssoFormat_clearBlocks]
  have hoverrun : thirteenBlocks.run mkfssoFormat = none :=
    run_of_overrun hn (by decide) (by decide) (by omega)
  refine ⟨hoverrun, fun henforced => henforced.defined hoverrun, fun henforced => ?_⟩
  obtain ⟨r, hrecord, htype, hbad⟩ := not_covered_of_wrap (c := wrappedSize) hn (by decide)
  exact hbad (henforced.covered r hrecord htype)

end Fsso
