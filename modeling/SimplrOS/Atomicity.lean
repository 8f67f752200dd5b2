import SimplrOS.FreeCounters
import SimplrOS.SizeLimit

/-!
# Failing calls and the disk

`fsso_add_file` sets the bit of the inode before it looks for blocks, the bits of
the blocks before it knows whether they are enough, and writes data and record
before it looks for a directory slot.  None of the failure exits takes any of
that back.  So a call that fails after it found an inode leaves the disk changed,
and the bits it set are counted free by the superblock for ever.

The second part is proved for superblocks whose totals keep every block and
record inside its area, `Fits`.  Past that, block numbers wrap to low addresses,
and a file whose contents happen to be the bitmap bytes may put them back.
-/

namespace Fsso

open ByteStore

/-- A call that fails leaves the disk as it was. -/
def Atomic (disk : Bytes) (c : AddCall) : Prop :=
  ∀ disk', c.run disk = some (-1, disk') → disk' = disk

/-- The first free root slot once the data and the record of inode `n` are
written, which is when the call looks for it. -/
def slotAtScan (disk : Bytes) (n : Nat) (c : AddCall) : Option Nat :=
  freeSlot (filledDisk disk n (chosenBlocks (setBit disk inodeBitmap n) c.size) c.data c.size)

/-- The call does not come to a failure exit with an inode in hand: it overruns
`allocated_blocks`, or it finds its blocks and a slot. -/
def Undisturbed (disk : Bytes) (c : AddCall) : Prop :=
  ∀ n, freeInode disk = some n →
    (fssoDirectBlocks < blocksNeeded c.size ∧ fssoDirectBlocks < (clearData disk n).length) ∨
    (blocksNeeded c.size ≤ (clearData disk n).length ∧ slotAtScan disk n c ≠ none)

/-- Block numbers do not wrap as byte addresses, and the inode bitmap ends below
the data blocks. -/
structure Fits (disk : Bytes) : Prop where
  blocks : (sbTotalBlocks disk).toNat ≤ 4194304
  inodes : (sbTotalInodes disk).toNat ≤ 81920

/-! ## What the failure exits leave -/

section Exits

variable {disk : Bytes} {n : Nat}

/-- The mark of the inode outlives the marks of the blocks. -/
theorem markedDisk_inodeBit (disk : Bytes) (n : Nat) (bs : List Nat) :
    bit (markedDisk disk n bs) inodeBitmap n = true := by
  apply bit_setBits_of_set
  rw [bit_setBit]
  simp

/-- **Too few blocks.**  The marks stay. -/
theorem markedDisk_ne (hn : freeInode disk = some n) (bs : List Nat) :
    markedDisk disk n bs ≠ disk := by
  intro hsame
  have hset := markedDisk_inodeBit disk n bs
  rw [hsame, (freeInode_bounds hn).2.2] at hset
  cases hset

/-- **Directory full.**  The mark of the inode lies below the records and the
data, so it stays as well. -/
theorem filledDisk_ne (hfits : Fits disk) (hn : freeInode disk = some n) {bs : List Nat}
    (hlen : bs.length ≤ 12) (hbs : ∀ b ∈ bs, 11 ≤ b ∧ b < 4194304) (data : Bytes)
    (size : UInt32) : filledDisk disk n bs data size ≠ disk := by
  intro hsame
  have hmap : inodeBitmap = 1024 := rfl
  have haddr := inodeAddr_eq n
  have hinodes := hfits.inodes
  obtain ⟨_, hlt, hclear⟩ := freeInode_bounds hn
  have hdata : ∀ b ∈ bs, b < 4194304 ∧
      (inodeBitmap + n / 8 < 1024 * b ∨ 1024 * b + 1024 ≤ inodeBitmap + n / 8) := by
    intro b hb
    have := hbs b hb
    omega
  have hset := markedDisk_inodeBit disk n bs
  have hbyte : filledDisk disk n bs data size (inodeBitmap + n / 8) =
      markedDisk disk n bs (inodeBitmap + n / 8) := by
    rw [filledDisk, writeInode_of_out _ _ hlen (by omega), writeData_of_out _ _ hdata]
  rw [← bit_congr hbyte, hsame, hclear] at hset
  cases hset

end Exits

/-! ## When a failing call is atomic -/

/-- On a placed disk the directory is scanned as it was before the call. -/
theorem Placed.slotAtScan_eq {disk : Bytes} {n : Nat} {c : AddCall} (h : Placed disk)
    (hn : freeInode disk = some n)
    (hroom : blocksNeeded c.size ≤ 12 ∨ (clearData disk n).length ≤ 12) :
    slotAtScan disk n c = freeSlot disk := by
  have hinodes := h.inodes
  have hlt := (freeInode_bounds hn).2.1
  have hcount := length_chosenBlocks disk n c.size
  exact (h.filled_root hn (chosenBlocks_collected (by omega) c.size) (by omega) c.data c.size).2

theorem Undisturbed.atomic {disk : Bytes} {c : AddCall} (h : Undisturbed disk c) :
    Atomic disk c := by
  intro disk' hrun
  have hdirect : fssoDirectBlocks = 12 := rfl
  obtain ⟨_, _, hsame⟩ | ⟨n, bs, hn, rfl, hlen, hexit⟩ := fssoAddFile_cases hrun
  · exact hsame
  · have hcount := length_chosenBlocks disk n c.size
    rcases h n hn with ⟨hneeded, hclear⟩ | ⟨henough, hslot⟩
    · omega
    · obtain ⟨hshort, _, _⟩ | ⟨_, hfull, _, _⟩ | ⟨_, _, _, hbad, _⟩ := hexit
      · omega
      · exact absurd hfull hslot
      · cases hbad

theorem Atomic.undisturbed {disk : Bytes} {c : AddCall} (hfits : Fits disk)
    (h : Atomic disk c) : Undisturbed disk c := by
  intro n hn
  have hdirect : fssoDirectBlocks = 12 := rfl
  have hmap : inodeBitmap = 1024 := rfl
  have hcount := length_chosenBlocks disk n c.size
  have hrun := fssoAddFile_of_free c.name c.data c.size hn
  dsimp only at hrun
  change c.run disk = _ at hrun
  by_cases hroom : (chosenBlocks (setBit disk inodeBitmap n) c.size).length ≤ 12
  · right
    rw [if_pos hroom] at hrun
    by_cases hshort : (chosenBlocks (setBit disk inodeBitmap n) c.size).length <
        blocksNeeded c.size
    · rw [if_pos hshort] at hrun
      exact absurd (h _ hrun) (markedDisk_ne hn _)
    · rw [if_neg hshort] at hrun
      refine ⟨by omega, fun hfull => ?_⟩
      have htotal : sbTotalBlocks (setBit disk inodeBitmap n) = sbTotalBlocks disk :=
        word32_congr fun x _ _ => setBit_of_out disk (by omega)
      have hrange : ∀ b ∈ chosenBlocks (setBit disk inodeBitmap n) c.size,
          11 ≤ b ∧ b < 4194304 := by
        intro b hb
        obtain ⟨hlo, hhi, _⟩ := mem_clearFrom.mp (List.mem_of_mem_take hb)
        rw [htotal] at hhi
        have hblocks := hfits.blocks
        have hfirst : fssoFirstDataBlock = 11 := rfl
        omega
      rw [slotAtScan] at hfull
      simp only [addToRoot, hfull] at hrun
      exact absurd (h _ hrun) (filledDisk_ne hfits hn hroom hrange c.data c.size)
  · left
    omega

/-- The same condition with the root directory as it is before the call. -/
def FindsRoom (disk : Bytes) (c : AddCall) : Prop :=
  ∀ n, freeInode disk = some n →
    (fssoDirectBlocks < blocksNeeded c.size ∧ fssoDirectBlocks < (clearData disk n).length) ∨
    (blocksNeeded c.size ≤ (clearData disk n).length ∧ freeSlot disk ≠ none)

theorem Placed.undisturbed_iff {disk : Bytes} {c : AddCall} (h : Placed disk) :
    Undisturbed disk c ↔ FindsRoom disk c := by
  refine forall_congr' fun n => imp_congr_right fun hn => ?_
  have hdirect : fssoDirectBlocks = 12 := rfl
  by_cases hroom : blocksNeeded c.size ≤ 12 ∨ (clearData disk n).length ≤ 12
  · rw [h.slotAtScan_eq hn hroom]
  · rw [not_or] at hroom
    exact iff_of_true (Or.inl (by omega)) (Or.inl (by omega))

/-- **Atomicity.**  A failing call leaves the disk alone if it does not come to a
failure exit with an inode in hand, and, on every disk whose totals fit, only
then.  On a placed disk the directory before the call tells. -/
theorem fssoAddFile_atomic_iff (disk : Bytes) (c : AddCall) :
    (Undisturbed disk c → Atomic disk c) ∧ (Fits disk → (Atomic disk c ↔ Undisturbed disk c)) ∧
      (Placed disk → (Undisturbed disk c ↔ FindsRoom disk c)) :=
  ⟨fun h => h.atomic, fun hfits => ⟨fun h => h.undisturbed hfits, fun h => h.atomic⟩,
    fun hplaced => hplaced.undisturbed_iff⟩

/-- The formatted disk with all of its inodes marked. -/
def noInodes : Bytes := fun x => if 1024 ≤ x ∧ x < 2048 then 255 else mkfssoFormat x

theorem noInodes_freeInode : freeInode noInodes = none := by
  refine Option.eq_none_iff_forall_ne_some.mpr fun n hn => ?_
  obtain ⟨_, hlt, hclear⟩ := freeInode_bounds hn
  have htotal : (sbTotalInodes noInodes).toNat = 512 := by decide
  have hmap : inodeBitmap = 1024 := rfl
  have hbyte : noInodes (inodeBitmap + n / 8) = 255 := if_pos (by omega)
  have hset : ∀ k < 8, (255 : UInt8).toNat.testBit k = true := by decide
  rw [bit, hbyte, hset (n % 8) (Nat.mod_lt n (by decide))] at hclear
  cases hclear

/-- Without a free inode the call fails and leaves the disk alone. -/
theorem fssoAddFile_atomic_noInodes :
    Atomic noInodes helloCall ∧ ∃ disk', helloCall.run noInodes = some (-1, disk') := by
  refine ⟨(fssoAddFile_atomic_iff noInodes helloCall).1 fun n hn => ?_, noInodes, ?_⟩
  · rw [noInodes_freeInode] at hn
    cases hn
  · rw [AddCall.run, fssoAddFile, noInodes_freeInode]

/-- The fourth file of an image finds the root directory full, and its inode
stays marked. -/
theorem fourthCall_not_atomic : ∃ disk disk', Reaches (List.replicate 3 emptyCall) disk ∧
    emptyCall.run disk = some (-1, disk') ∧ disk' ≠ disk := by
  obtain ⟨disk, hreach⟩ := exists_reaches (emptyCalls_small 3)
  obtain ⟨⟨r, disk'⟩, hrun⟩ :=
    Option.isSome_iff_exists.mp (AddCall.run_isSome (c := emptyCall) (by decide) disk)
  have hinv := hreach.inv
  have hinv' := hinv.step hrun
  have hr : r = -1 := (hinv.run_late (by simp) hrun).1
  refine ⟨disk, disk', hreach, by rw [hrun, hr], fun hsame => ?_⟩
  have hbefore := hinv.inodeBits 4 (by omega)
  have hafter := hinv'.inodeBits 4 (by omega)
  rw [hsame, hbefore] at hafter
  simp at hafter

end Fsso
