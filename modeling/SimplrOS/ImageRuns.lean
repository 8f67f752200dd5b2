import SimplrOS.AddStages

/-!
# Images reached by mkfsso

A run starts from the formatted image and makes any calls of `fsso_add_file`
whose behaviour is defined.  Two facts shape all such runs.

* The root directory has room for three entries, so exactly the first three
  calls succeed and every later one fails.
* A failing call does not give its inode back, so call number `m` takes inode
  `m` until all 512 are gone.

`Inv m` is what holds after `m` calls.  It is kept by every call, also by those
whose inode record runs past the inode table into the directory and the data
blocks, because such a record can only replace a used slot's inode field by a
block number, which is again nonzero.
-/

namespace Fsso

open ByteStore

/-- The arguments of one call. -/
structure AddCall where
  name : List UInt8
  data : Bytes
  size : UInt32

/-- Run one call. -/
def AddCall.run (c : AddCall) (disk : Bytes) : Option (Int × Bytes) :=
  fssoAddFile disk c.name c.data c.size

/-- `Reaches calls disk`: the calls, latest first, lead from the formatted image
to `disk`, whatever they return. -/
inductive Reaches : List AddCall → Bytes → Prop
  | format : Reaches [] mkfssoFormat
  | call {calls : List AddCall} {disk disk' : Bytes} {c : AddCall} {r : Int}
      (before : Reaches calls disk) (hrun : c.run disk = some (r, disk')) :
      Reaches (c :: calls) disk'

/-- A run determines its image. -/
theorem Reaches.unique {calls : List AddCall} {disk disk' : Bytes} (h : Reaches calls disk)
    (h' : Reaches calls disk') : disk = disk' := by
  induction h generalizing disk' with
  | format =>
      cases h'
      rfl
  | call _ hrun ih =>
      cases h' with
      | call before hrun' =>
          rw [ih before, hrun'] at hrun
          cases hrun
          rfl

/-! ## The formatted image -/

/-- Outside the header, the two bitmaps and the root record, the formatted image is zero. -/
theorem mkfssoFormat_zero {x : Nat} (hhead : 44 ≤ x) (hinodes : x ≠ 1024) (hblocks : x ≠ 2048)
    (hblocks' : x ≠ 2049) (hroot : x < 3072 ∨ 3092 ≤ x) : mkfssoFormat x = 0 := by
  have haddr : inodeAddr 0 = 3072 := rfl
  simp only [mkfssoFormat]
  rw [put_ne _ _ (by omega), putWord32_of_out _ _ (by omega), put_ne _ _ (by omega),
    putWord32_of_out _ _ (by omega), putWord32_of_out _ _ (by omega),
    putWord32_of_out _ _ (by omega), put_ne _ _ (by omega), put_ne _ _ (by omega),
    put_ne _ _ (by omega), copyBytes_of_out _ _ (by omega), putWord32_of_out _ _ (by omega),
    putWord32_of_out _ _ (by omega), putWord32_of_out _ _ (by omega),
    putWord32_of_out _ _ (by omega), putWord32_of_out _ _ (by omega),
    putWord32_of_out _ _ (by omega), putWord32_of_out _ _ (by omega),
    putWord64_of_out _ _ (by omega)]

/-- Only the root's inode is marked. -/
theorem mkfssoFormat_inodeBit (i : Nat) (hi : i < 512) :
    bit mkfssoFormat inodeBitmap i = decide (i = 0) := by
  by_cases hbyte : i < 8
  · have : ∀ j, j < 8 → bit mkfssoFormat inodeBitmap j = decide (j = 0) := by decide
    exact this i hbyte
  · have hmap : inodeBitmap = 1024 := rfl
    have hzero : mkfssoFormat (inodeBitmap + i / 8) = 0 :=
      mkfssoFormat_zero (by omega) (by omega) (by omega) (by omega) (by omega)
    have hi0 : i ≠ 0 := by omega
    simp [bit, hzero, hi0]

/-- The first twelve blocks, and no others, are marked. -/
theorem mkfssoFormat_blockBit (i : Nat) (hi : i < 4096) :
    bit mkfssoFormat blockBitmap i = decide (i < 12) := by
  by_cases hbyte : i < 16
  · have : ∀ j, j < 16 → bit mkfssoFormat blockBitmap j = decide (j < 12) := by decide
    exact this i hbyte
  · have hmap : blockBitmap = 2048 := rfl
    have hzero : mkfssoFormat (blockBitmap + i / 8) = 0 :=
      mkfssoFormat_zero (by omega) (by omega) (by omega) (by omega) (by omega)
    have hi12 : ¬ i < 12 := by omega
    simp [bit, hzero, hi12]

/-- 4084 blocks are clear: one less than the superblock's count says. -/
theorem mkfssoFormat_clearBlocks : clearCount mkfssoFormat blockBitmap 4096 = 4084 := by
  have hset : ∀ j, j < 12 → bit mkfssoFormat blockBitmap j = true := by
    intro j hj
    rw [mkfssoFormat_blockBit j (by omega), decide_eq_true hj]
  have hall : ∀ j ∈ List.range' 12 4084, (!bit mkfssoFormat blockBitmap j) = true := by
    intro j hj
    obtain ⟨hlo, hhi⟩ := List.mem_range'_1.mp hj
    have hj12 : ¬ j < 12 := by omega
    rw [mkfssoFormat_blockBit j (by omega), decide_eq_false hj12]
    rfl
  rw [← clearFrom_length (show 12 ≤ 4096 by decide) hset, clearFrom,
    List.filter_eq_self.mpr hall, List.length_range']

/-! ## What no call changes -/

/-- The superblock apart from its free counters, the root inode and the bits of
the reserved blocks and of the root directory are those of the formatted image. -/
structure Layout (disk : Bytes) : Prop where
  header : SameOn disk mkfssoFormat 0 20
  labels : SameOn disk mkfssoFormat 28 64
  root : SameOn disk mkfssoFormat 3072 76
  reserved : ∀ b, b < 12 → bit disk blockBitmap b = true

theorem Layout.of_format : Layout mkfssoFormat where
  header := fun _ _ _ => rfl
  labels := fun _ _ _ => rfl
  root := fun _ _ _ => rfl
  reserved := fun b hb => by rw [mkfssoFormat_blockBit b (by omega), decide_eq_true hb]

theorem Layout.totalBlocks {disk : Bytes} (h : Layout disk) : sbTotalBlocks disk = 4096 :=
  (word32_congr fun x _ _ => h.header x (by omega) (by omega)).trans (by decide)

theorem Layout.totalInodes {disk : Bytes} (h : Layout disk) : sbTotalInodes disk = 512 :=
  (word32_congr fun x _ _ => h.header x (by omega) (by omega)).trans (by decide)

theorem Layout.magic {disk : Bytes} (h : Layout disk) : word64 disk 0 = fssoMagic :=
  (word64_congr fun x _ _ => h.header x (by omega) (by omega)).trans (by decide)

theorem Layout.rootBase_eq {disk : Bytes} (h : Layout disk) : rootBase disk = 11264 := by
  have hptr : word32 disk (inodeAddr 0 + 16) = 11 :=
    (word32_congr fun x hlo hhi => h.root x (by simp only [inodeAddr_eq] at hlo; omega)
      (by simp only [inodeAddr_eq] at hhi; omega)).trans (by decide)
  rw [rootBase, hptr]
  rfl

/-! ## The blocks a call takes -/

/-- What the collected blocks of a call on a `Layout` disk look like. -/
structure Chosen (disk : Bytes) (bs : List Nat) : Prop where
  nodup : bs.Nodup
  range : ∀ b ∈ bs, 12 ≤ b ∧ b < 4096
  clear : ∀ b ∈ bs, bit disk blockBitmap b = false

/-- The blocks chosen are the first clear ones. -/
theorem chosenBlocks_eq {disk : Bytes} (h : Layout disk) {n : Nat} (hn : n < 512)
    (size : UInt32) :
    chosenBlocks (setBit disk inodeBitmap n) size =
      (clearFrom disk blockBitmap 11 4085).take (blocksNeeded size) := by
  rw [chosenBlocks_of_inode (by omega), h.totalBlocks]
  rfl

/-- They lie in the data area, are clear and differ from each other. -/
theorem chosenBlocks_chosen {disk : Bytes} (h : Layout disk) {n : Nat} (hn : n < 512)
    (size : UInt32) : Chosen disk (chosenBlocks (setBit disk inodeBitmap n) size) := by
  rw [chosenBlocks_eq h hn]
  have hmem : ∀ b ∈ (clearFrom disk blockBitmap 11 4085).take (blocksNeeded size),
      11 ≤ b ∧ b < 4096 ∧ bit disk blockBitmap b = false := by
    intro b hb
    obtain ⟨hlo, hhi, hclear⟩ := mem_clearFrom.mp (List.mem_of_mem_take hb)
    exact ⟨hlo, by omega, hclear⟩
  refine ⟨(clearFrom_nodup _ _ _ _).sublist (List.take_sublist _ _), ?_,
    fun b hb => (hmem b hb).2.2⟩
  intro b hb
  obtain ⟨hlo, hhi, hclear⟩ := hmem b hb
  have hne : b ≠ 11 := by
    intro heq
    subst heq
    simp [h.reserved 11 (by decide)] at hclear
  omega

/-- A call that finds too few blocks has taken every clear one. -/
theorem chosenBlocks_short {disk : Bytes} (h : Layout disk) {n : Nat} (hn : n < 512)
    {size : UInt32}
    (hshort : (chosenBlocks (setBit disk inodeBitmap n) size).length < blocksNeeded size) :
    (chosenBlocks (setBit disk inodeBitmap n) size).length =
      clearCount disk blockBitmap 4096 := by
  have hall : (clearFrom disk blockBitmap 11 4085).length = clearCount disk blockBitmap 4096 :=
    clearFrom_length (show 11 ≤ 4096 by decide) fun j hj => h.reserved j (by omega)
  rw [chosenBlocks_eq h hn, List.length_take] at hshort ⊢
  omega

/-! ## The effect of a call -/

/-- What marking, filling and linking have in common: the two bitmaps gain
inode `n` and the blocks `bs`, and nothing changes outside the free counters,
the bitmaps, the root directory block, the blocks `bs` and inode record `n`. -/
structure Effect (disk : Bytes) (n : Nat) (bs : List Nat) (disk' : Bytes) : Prop where
  inodeBits : ∀ i, i < 512 → bit disk' inodeBitmap i = (bit disk inodeBitmap i || decide (i = n))
  blockBits : ∀ i, i < 4096 →
    bit disk' blockBitmap i = (bit disk blockBitmap i || decide (i ∈ bs))
  kept : ∀ x, (x < 20 ∨ 28 ≤ x) → (x < 1024 ∨ 2560 ≤ x) → (x < 11264 ∨ 12288 ≤ x) →
    (∀ b ∈ bs, x < 1024 * b ∨ 1024 * b + 1024 ≤ x) →
    (x < inodeAddr n ∨ inodeAddr n + 76 ≤ x) → disk' x = disk x

/-- A byte outside the bitmaps, the record and the chosen blocks is kept. -/
theorem filledDisk_of_out {disk : Bytes} {n x : Nat} {bs : List Nat} (data : Bytes)
    (size : UInt32) (hlen : bs.length ≤ 12) (hbs : ∀ b ∈ bs, 12 ≤ b ∧ b < 4096) (_hn : n < 512)
    (hmap : x < 1024 ∨ 2560 ≤ x) (hdata : ∀ b ∈ bs, x < 1024 * b ∨ 1024 * b + 1024 ≤ x)
    (hrecord : x < inodeAddr n ∨ inodeAddr n + 76 ≤ x) :
    filledDisk disk n bs data size x = disk x := by
  have hblocks : ∀ b ∈ bs, b < 4194304 ∧ (x < 1024 * b ∨ 1024 * b + 1024 ≤ x) := by
    intro b hb
    have := (hbs b hb).2
    exact ⟨by omega, hdata b hb⟩
  have hbits : ∀ b ∈ bs, x ≠ 2048 + b / 8 := by
    intro b hb
    have := (hbs b hb).2
    omega
  rw [filledDisk, writeInode_of_out _ _ hlen hrecord, writeData_of_out _ _ hblocks,
    markedDisk_of_out _ (by omega) hbits]

/-- The inode bits after the marking: those before it, and the new one. -/
theorem markedDisk_inodeBits {disk : Bytes} {n : Nat} {bs : List Nat} (i : Nat)
    (hi : i < 512) : bit (markedDisk disk n bs) inodeBitmap i =
      (bit disk inodeBitmap i || decide (i = n)) := by
  have hmap : inodeBitmap = 1024 := rfl
  have hmap' : blockBitmap = 2048 := rfl
  rw [← bit_setBit, markedDisk]
  exact bit_congr (setBits_of_out _ fun b _ => by omega)

/-- The block bits after the marking: those before it, and the chosen ones. -/
theorem markedDisk_blockBits {disk : Bytes} {n : Nat} {bs : List Nat} (hn : n < 512)
    (i : Nat) : bit (markedDisk disk n bs) blockBitmap i =
      (bit disk blockBitmap i || decide (i ∈ bs)) := by
  rw [markedDisk, bit_setBits, setBit_inode_blockBit disk (by omega)]

theorem above_bitmaps {bs : List Nat} (hbs : ∀ b ∈ bs, 12 ≤ b ∧ b < 4096) :
    ∀ b ∈ bs, 3 ≤ b ∧ b < 4194304 := by
  intro b hb
  have := hbs b hb
  omega

/-- Data and inode records start above the bitmaps. -/
theorem filledDisk_bitmaps {disk : Bytes} {n x : Nat} {bs : List Nat} (data : Bytes)
    (size : UInt32) (hlen : bs.length ≤ 12) (hbs : ∀ b ∈ bs, 3 ≤ b ∧ b < 4194304)
    (hx : x < 3072) : filledDisk disk n bs data size x = markedDisk disk n bs x := by
  have haddr := inodeAddr_eq n
  have hblocks : ∀ b ∈ bs, b < 4194304 ∧ (x < 1024 * b ∨ 1024 * b + 1024 ≤ x) := by
    intro b hb
    have := hbs b hb
    omega
  rw [filledDisk, writeInode_of_out _ _ hlen (by omega), writeData_of_out _ _ hblocks]

theorem markedDisk_effect {disk : Bytes} {n : Nat} {bs : List Nat} (hn : n < 512)
    (hbs : ∀ b ∈ bs, 12 ≤ b ∧ b < 4096) : Effect disk n bs (markedDisk disk n bs) where
  inodeBits := markedDisk_inodeBits
  blockBits := fun i _ => markedDisk_blockBits hn i
  kept := by
    intro x _ hmap _ _ _
    have hbits : ∀ b ∈ bs, x ≠ 2048 + b / 8 := by
      intro b hb
      have := (hbs b hb).2
      omega
    exact markedDisk_of_out _ (by omega) hbits

theorem filledDisk_effect {disk : Bytes} {n : Nat} {bs : List Nat} (data : Bytes)
    (size : UInt32) (hn : n < 512) (hlen : bs.length ≤ 12)
    (hbs : ∀ b ∈ bs, 12 ≤ b ∧ b < 4096) :
    Effect disk n bs (filledDisk disk n bs data size) where
  inodeBits := by
    intro i hi
    have hmap : inodeBitmap = 1024 := rfl
    have hmarked : bit (markedDisk disk n bs) inodeBitmap i = _ := markedDisk_inodeBits i hi
    rw [← hmarked]
    exact bit_congr (filledDisk_bitmaps data size hlen (above_bitmaps hbs) (by omega))
  blockBits := by
    intro i hi
    have hmap : blockBitmap = 2048 := rfl
    rw [← markedDisk_blockBits hn i]
    exact bit_congr (filledDisk_bitmaps data size hlen (above_bitmaps hbs) (by omega))
  kept := fun _ _ hmap _ hdata hrecord =>
    filledDisk_of_out data size hlen hbs hn hmap hdata hrecord

/-- A step with such an effect keeps the layout. -/
theorem Effect.layout {disk disk' : Bytes} {n : Nat} {bs : List Nat}
    (he : Effect disk n bs disk') (h : Layout disk) (hpos : 1 ≤ n)
    (hbs : ∀ b ∈ bs, 12 ≤ b ∧ b < 4096) : Layout disk' := by
  have haddr := inodeAddr_eq n
  have hsame : ∀ x, x < 20 ∨ 28 ≤ x → x < 1024 ∨ 3072 ≤ x → x < 3148 → disk' x = disk x := by
    intro x hcount hmap hx
    have hdata : ∀ b ∈ bs, x < 1024 * b ∨ 1024 * b + 1024 ≤ x := by
      intro b hb
      have := (hbs b hb).1
      omega
    exact he.kept x hcount (by omega) (by omega) hdata (by omega)
  refine ⟨?_, ?_, ?_, ?_⟩
  · intro x _ hx
    rw [hsame x (by omega) (by omega) (by omega)]
    exact h.header x (by omega) hx
  · intro x hlo hx
    rw [hsame x (by omega) (by omega) (by omega)]
    exact h.labels x hlo hx
  · intro x hlo hx
    rw [hsame x (by omega) (by omega) (by omega)]
    exact h.root x hlo hx
  · intro b hb
    rw [he.blockBits b (by omega), h.reserved b hb]
    rfl

/-- The block bitmap loses exactly the chosen clear bits. -/
theorem Effect.clearCount {disk disk' : Bytes} {n : Nat} {bs : List Nat}
    (he : Effect disk n bs disk') (hbs : Chosen disk bs) :
    ByteStore.clearCount disk' blockBitmap 4096 + bs.length =
      ByteStore.clearCount disk blockBitmap 4096 := by
  have hmem : ∀ b ∈ bs, b < 4096 ∧ bit disk blockBitmap b = false :=
    fun b hb => ⟨(hbs.range b hb).2, hbs.clear b hb⟩
  have hsame : ByteStore.clearCount disk' blockBitmap 4096 =
      ByteStore.clearCount (setBits disk blockBitmap bs) blockBitmap 4096 := by
    apply clearCount_congr
    intro i hi
    rw [he.blockBits i hi, bit_setBits]
  rw [hsame, clearCount_setBits hbs.nodup hmem]

end Fsso
