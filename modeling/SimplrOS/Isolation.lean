import SimplrOS.RunInvariant

/-!
# Isolation of files

As long as the inode table stays inside blocks 3 to 10, which is as long as no
inode above 106 is taken, every call writes only blocks nobody owns, its own
inode record and its own root slot.  `Tidy m` is the ownership invariant behind
this and `CallFootprint` is what one call contributes to it.

Inode 107 ends 16 bytes inside the root directory block.  Since every call takes
an inode, the invariant lasts for exactly 106 calls.
-/

namespace Fsso

open ByteStore

/-! ## Statement -/

/-- Pointers of inodes in use are private, in range and marked, and the inode
records lie inside blocks 3 to 10. -/
structure StateIsolated (disk : Bytes) : Prop where
  owned : ∀ i, i < (sbTotalInodes disk).toNat → bit disk inodeBitmap i = true →
    ∀ j, j < fssoDirectBlocks → pointer disk i j ≠ 0 →
      fssoFirstDataBlock ≤ (pointer disk i j).toNat ∧ pointer disk i j < sbTotalBlocks disk ∧
      bit disk blockBitmap (pointer disk i j).toNat = true
  distinct : ∀ i i', i < (sbTotalInodes disk).toNat → i' < (sbTotalInodes disk).toNat →
    bit disk inodeBitmap i = true → bit disk inodeBitmap i' = true →
    ∀ j j', j < fssoDirectBlocks → j' < fssoDirectBlocks → pointer disk i j ≠ 0 →
      pointer disk i j = pointer disk i' j' → i = i' ∧ j = j'
  records : ∀ i, i < (sbTotalInodes disk).toNat → bit disk inodeBitmap i = true →
    3 * fssoBlockSize ≤ inodeAddr i ∧ inodeAddr i + inodeSize ≤ 11 * fssoBlockSize

/-- Call `c` added a file: it returned 0, took inode `n` and put it into root
slot `s`, which was free. -/
structure AddedBy (disk : Bytes) (c : AddCall) (disk' : Bytes) (n s : Nat) : Prop where
  run : c.run disk = some (0, disk')
  inode : freeInode disk = some n
  slot_lt : s < entriesPerBlock
  slot_free : word32 disk (entryAddr (rootBase disk) s) = 0
  slot_used : word32 disk' (entryAddr (rootBase disk') s) = UInt32.ofNat n

/-- Some call of the run added the file with inode `n` and root slot `s`. -/
inductive HasFile : List AddCall → Nat → Nat → Prop
  | here {calls : List AddCall} {disk disk' : Bytes} {c : AddCall} {n s : Nat}
      (before : Reaches calls disk) (added : AddedBy disk c disk' n s) : HasFile (c :: calls) n s
  | later {calls : List AddCall} {c : AddCall} {n s : Nat} (before : HasFile calls n s) :
      HasFile (c :: calls) n s

/-- Inode record, data blocks and root entry of a file are the same on both
disks. -/
structure FileKept (disk disk' : Bytes) (n s : Nat) : Prop where
  record : SameOn disk' disk (inodeAddr n) inodeSize
  blocks : ∀ j, j < fssoDirectBlocks → pointer disk n j ≠ 0 →
    SameOn disk' disk (blockAddr (pointer disk n j)) fssoBlockSize
  entry : SameOn disk' disk (entryAddr (rootBase disk) s) dirEntrySize

/-- Every state of the run is isolated and every call keeps all earlier files. -/
structure RunIsolated (calls : List AddCall) : Prop where
  states : ∀ earlier, earlier <:+ calls → ∀ disk, Reaches earlier disk → StateIsolated disk
  steps : ∀ c earlier, c :: earlier <:+ calls → ∀ disk disk' r, Reaches earlier disk →
    c.run disk = some (r, disk') → ∀ n s, HasFile earlier n s → FileKept disk disk' n s

/-! ## The ownership invariant -/

/-- After `m` calls inodes `0, …, m` are in use, the rest of the table is still
zero, and no block has two owners. -/
structure Tidy (m : Nat) (disk : Bytes) : Prop where
  fresh : ∀ x, inodeAddr (m + 1) ≤ x → x < 11264 → disk x = 0
  owned : ∀ i, i ≤ m → ∀ j, j < 12 → pointer disk i j ≠ 0 →
    11 ≤ (pointer disk i j).toNat ∧ (pointer disk i j).toNat < 4096 ∧
    bit disk blockBitmap (pointer disk i j).toNat = true
  distinct : ∀ i i', i ≤ m → i' ≤ m → ∀ j j', j < 12 → j' < 12 → pointer disk i j ≠ 0 →
    pointer disk i j = pointer disk i' j' → i = i' ∧ j = j'

/-- The writes of one call that takes inode `n`, as far as isolation goes. -/
structure CallFootprint (disk : Bytes) (n : Nat) (bs : List Nat) (disk' : Bytes) : Prop where
  effect : Effect disk n bs disk'
  chosen : Chosen disk bs
  pointers : ∀ j, j < 12 → pointer disk' n j ≠ 0 →
    ∃ h : j < bs.length, pointer disk' n j = UInt32.ofNat bs[j]
  entries : ∀ s, s < 3 → slotInode disk s ≠ 0 → SameOn disk' disk (entryAddr 11264 s) 260

/-- The next inode has no blocks yet. -/
theorem Tidy.fresh_pointer {m j : Nat} {disk : Bytes} (h : Tidy m disk) (hm : m < 106)
    (hj : j < 12) : pointer disk (m + 1) j = 0 := by
  have haddr := inodeAddr_eq (m + 1)
  have hsame : SameOn disk (fun _ => 0) (inodeAddr (m + 1) + 16 + 4 * j) 4 :=
    fun x _ _ => h.fresh x (by omega) (by omega)
  rw [pointer, word32_congr hsame]
  rfl

theorem Tidy.of_format : Tidy 0 mkfssoFormat where
  fresh := by
    intro x hlo hhi
    rw [inodeAddr_eq] at hlo
    exact mkfssoFormat_zero (by omega) (by omega) (by omega) (by omega) (by omega)
  owned := by
    intro i hi j hj hne
    obtain rfl : i = 0 := by omega
    have hroot : ∀ j, j < 12 → pointer mkfssoFormat 0 j ≠ 0 → j = 0 := by decide
    obtain rfl := hroot j hj hne
    decide
  distinct := by
    intro i i' hi hi' j j' hj hj' hne heq
    have hroot : ∀ j, j < 12 → pointer mkfssoFormat 0 j ≠ 0 → j = 0 := by decide
    obtain rfl : i = 0 := by omega
    obtain rfl : i' = 0 := by omega
    exact ⟨rfl, (hroot j hj hne).trans (hroot j' hj' (heq ▸ hne)).symm⟩

/-- Records of other inodes keep their pointers. -/
theorem Effect.pointer_eq {disk disk' : Bytes} {n : Nat} {bs : List Nat}
    (he : Effect disk n bs disk') (hbs : Chosen disk bs) {i j : Nat} (hi : i ≤ 106)
    (hne : i ≠ n) (hj : j < 12) : pointer disk' i j = pointer disk i j := by
  have haddr := inodeAddr_eq i
  have haddr' := inodeAddr_eq n
  apply word32_congr
  intro x _ _
  have hdata : ∀ b ∈ bs, x < 1024 * b ∨ 1024 * b + 1024 ≤ x := by
    intro b hb
    have := (hbs.range b hb).1
    omega
  exact he.kept x (by omega) (by omega) (by omega) hdata (by omega)

theorem ofNat_toNat_of_lt {b : Nat} (hb : b < 4096) : (UInt32.ofNat b).toNat = b := by
  rw [UInt32.toNat_ofNat']
  omega

/-- The blocks of the new inode are those that the call took. -/
theorem CallFootprint.taken {disk disk' : Bytes} {n j : Nat} {bs : List Nat}
    (hc : CallFootprint disk n bs disk') (hj : j < 12) (hne : pointer disk' n j ≠ 0) :
    ∃ hlen : j < bs.length, bs[j] ∈ bs ∧ (pointer disk' n j).toNat = bs[j] := by
  obtain ⟨hlen, hnew⟩ := hc.pointers j hj hne
  have hmem : bs[j] ∈ bs := List.getElem_mem hlen
  exact ⟨hlen, hmem, by rw [hnew, ofNat_toNat_of_lt (hc.chosen.range _ hmem).2]⟩

/-- The block of an old owner was marked before the call, and the new ones were clear. -/
theorem Tidy.foreign {m : Nat} {disk disk' : Bytes} {bs : List Nat} (h : Tidy m disk)
    (hc : CallFootprint disk (m + 1) bs disk') {i j j' : Nat} (hi : i ≤ m) (hj : j < 12)
    (hj' : j' < 12) (hne : pointer disk i j ≠ 0) (hne' : pointer disk' (m + 1) j' ≠ 0) :
    pointer disk i j ≠ pointer disk' (m + 1) j' := by
  intro heq
  obtain ⟨_, hmem, hnew⟩ := hc.taken hj' hne'
  have hset := (h.owned i hi j hj hne).2.2
  rw [heq, hnew, hc.chosen.clear _ hmem] at hset
  cases hset

/-- **Step lemma.**  A call that takes an inode of the table proper keeps the
ownership invariant. -/
theorem Tidy.step {m : Nat} {disk disk' : Bytes} {bs : List Nat} (h : Tidy m disk)
    (hm : m < 106) (hc : CallFootprint disk (m + 1) bs disk') : Tidy (m + 1) disk' := by
  have hold : ∀ i, i ≤ m → ∀ j, j < 12 → pointer disk' i j = pointer disk i j :=
    fun i hi j hj => hc.effect.pointer_eq hc.chosen (by omega) (by omega) hj
  refine ⟨?_, ?_, ?_⟩
  · intro x hlo hhi
    have haddr := inodeAddr_eq (m + 1)
    have haddr' := inodeAddr_eq (m + 2)
    have hlo' : inodeAddr (m + 2) ≤ x := hlo
    have hdata : ∀ b ∈ bs, x < 1024 * b ∨ 1024 * b + 1024 ≤ x := by
      intro b hb
      have := (hc.chosen.range b hb).1
      omega
    rw [hc.effect.kept x (by omega) (by omega) (by omega) hdata (by omega)]
    exact h.fresh x (by omega) hhi
  · intro i hi j hj hne
    by_cases hin : i = m + 1
    · subst hin
      obtain ⟨_, hmem, hnew⟩ := hc.taken hj hne
      obtain ⟨hlo, hhi⟩ := hc.chosen.range _ hmem
      rw [hnew, hc.effect.blockBits _ hhi]
      refine ⟨by omega, hhi, ?_⟩
      rw [decide_eq_true hmem, Bool.or_true]
    · have him : i ≤ m := by omega
      rw [hold i him j hj] at hne ⊢
      obtain ⟨hlo, hhi, hset⟩ := h.owned i him j hj hne
      exact ⟨hlo, hhi, by rw [hc.effect.blockBits _ hhi, hset, Bool.true_or]⟩
  · intro i i' hi hi' j j' hj hj' hne heq
    by_cases hin : i = m + 1
    · by_cases hin' : i' = m + 1
      · subst hin
        subst hin'
        obtain ⟨_, _, hnew⟩ := hc.taken hj hne
        obtain ⟨_, _, hnew'⟩ := hc.taken hj' (heq ▸ hne)
        have hsame : bs[j] = bs[j'] := by
          rw [← hnew, ← hnew', heq]
        exact ⟨rfl, (List.Nodup.getElem_inj_iff hc.chosen.nodup).mp hsame⟩
      · subst hin
        have hi'm : i' ≤ m := by omega
        have hne' : pointer disk i' j' ≠ 0 := by
          rw [← hold i' hi'm j' hj', ← heq]
          exact hne
        rw [hold i' hi'm j' hj'] at heq
        exact absurd heq.symm (h.foreign hc hi'm hj' hj hne' hne)
    · have him : i ≤ m := by omega
      rw [hold i him j hj] at hne heq
      by_cases hin' : i' = m + 1
      · subst hin'
        exact absurd heq (h.foreign hc him hj hj' hne (heq ▸ hne))
      · have hi'm : i' ≤ m := by omega
        rw [hold i' hi'm j' hj'] at heq
        exact h.distinct i i' him hi'm j j' hj hj' hne heq

/-! ## The footprint of a call -/

theorem markedDisk_footprint {disk : Bytes} {n : Nat} {bs : List Nat} (hn : n < 512)
    (hbs : Chosen disk bs) (hzero : ∀ j, j < 12 → pointer disk n j = 0) :
    CallFootprint disk n bs (markedDisk disk n bs) where
  effect := markedDisk_effect hn hbs.range
  chosen := hbs
  pointers := by
    intro j hj hne
    have haddr := inodeAddr_eq n
    have hsame : pointer (markedDisk disk n bs) n j = pointer disk n j := by
      apply word32_congr
      intro x _ _
      have hbits : ∀ b ∈ bs, x ≠ 2048 + b / 8 := by
        intro b hb
        have := (hbs.range b hb).2
        omega
      exact markedDisk_of_out _ (by omega) hbits
    exact absurd (hsame.trans (hzero j hj)) hne
  entries := by
    intro s _ _ x hlo _
    have haddr := entryAddr_eq 11264 s
    have hbits : ∀ b ∈ bs, x ≠ 2048 + b / 8 := by
      intro b hb
      have := (hbs.range b hb).2
      omega
    exact markedDisk_of_out _ (by omega) hbits

/-- The pointers of the new record are the chosen blocks. -/
theorem filledDisk_pointer {disk : Bytes} {n : Nat} {bs : List Nat} (data : Bytes)
    (size : UInt32) (hn : n ≤ 106) (hbs : ∀ b ∈ bs, 12 ≤ b ∧ b < 4096) {j : Nat} (hj : j < 12) :
    pointer (filledDisk disk n bs data size) n j =
      if h : j < bs.length then UInt32.ofNat bs[j] else pointer disk n j := by
  have haddr := inodeAddr_eq n
  have hold : pointer (writeData size data 0 bs (markedDisk disk n bs)) n j =
      pointer disk n j := by
    apply word32_congr
    intro x _ _
    have hdata : ∀ b ∈ bs, b < 4194304 ∧ (x < 1024 * b ∨ 1024 * b + 1024 ≤ x) := by
      intro b hb
      have := hbs b hb
      omega
    have hbits : ∀ b ∈ bs, x ≠ 2048 + b / 8 := by
      intro b hb
      have := (hbs b hb).2
      omega
    rw [writeData_of_out size data hdata, markedDisk_of_out _ (by omega) hbits]
  rw [filledDisk, pointer_writeInode, hold]

/-- Filling adds the data blocks to the footprint. -/
theorem filledDisk_footprint {disk : Bytes} {n : Nat} {bs : List Nat} (data : Bytes)
    (size : UInt32) (hn : n ≤ 106) (hlen : bs.length ≤ 12) (hbs : Chosen disk bs)
    (hzero : ∀ j, j < 12 → pointer disk n j = 0) :
    CallFootprint disk n bs (filledDisk disk n bs data size) where
  effect := filledDisk_effect data size (by omega) hlen hbs.range
  chosen := hbs
  pointers := by
    intro j hj hne
    rw [filledDisk_pointer data size hn hbs.range hj] at hne ⊢
    split at hne
    · rename_i hjlen
      exact ⟨hjlen, by simp [hjlen]⟩
    · exact absurd (hzero j hj) hne
  entries := by
    intro s hs _ x _ _
    have haddr := entryAddr_eq 11264 s
    have haddr' := inodeAddr_eq n
    have hdata : ∀ b ∈ bs, x < 1024 * b ∨ 1024 * b + 1024 ≤ x := by
      intro b hb
      have := (hbs.range b hb).1
      omega
    exact filledDisk_of_out data size hlen hbs.range (by omega) (by omega) hdata (by omega)

theorem linkEntry_footprint {disk filled : Bytes} {n slot found : Nat} {bs : List Nat}
    (name : List UInt8) (hn : n ≤ 106) (hc : CallFootprint disk n bs filled)
    (h : Layout filled) (hslot : slot < 3) (hfree : slotInode disk slot = 0) :
    CallFootprint disk n bs (linkEntry filled n slot name found) where
  effect := linkEntry_effect name hc.effect h hslot
  chosen := hc.chosen
  pointers := by
    intro j hj hne
    have hroot := h.rootBase_eq
    have haddr := inodeAddr_eq n
    have haddr' := entryAddr_eq 11264 slot
    have hsame : pointer (linkEntry filled n slot name found) n j = pointer filled n j :=
      word32_congr fun x _ _ =>
        linkEntry_of_out filled name (by omega) (by rw [hroot]; omega)
    rw [hsame] at hne ⊢
    exact hc.pointers j hj hne
  entries := by
    intro s hs hused x hlo hhi
    have hroot := h.rootBase_eq
    have haddr := entryAddr_eq 11264 slot
    have haddr' := entryAddr_eq 11264 s
    have hne : s ≠ slot := by
      intro heq
      subst heq
      exact hused hfree
    rw [linkEntry_of_out filled name (by omega) (by rw [hroot]; omega)]
    exact hc.entries s hs hused x hlo hhi

/-- Every call among the first 106 has a footprint. -/
theorem Inv.footprint {m : Nat} {disk disk' : Bytes} {c : AddCall} {r : Int} (h : Inv m disk)
    (ht : Tidy m disk) (hm : m < 106) (hrun : c.run disk = some (r, disk')) :
    ∃ bs, CallFootprint disk (m + 1) bs disk' := by
  have hzero : ∀ j, j < 12 → pointer disk (m + 1) j = 0 := fun j hj => ht.fresh_pointer hm hj
  by_cases hearly : m < 3
  · obtain ⟨bs, hbs, hlen, _, _, rfl⟩ := h.run_early hearly hrun
    have hfilled := filledDisk_footprint c.data c.size (by omega) hlen hbs hzero
    have hlayout := hfilled.effect.layout h.layout (by omega) hbs.range
    have hfree : slotInode disk m = 0 := by
      apply Classical.byContradiction
      intro hused
      have := (h.slots m hearly).mp hused
      omega
    exact ⟨bs, linkEntry_footprint c.name (by omega) hfilled hlayout hearly hfree⟩
  · obtain ⟨_, ⟨hdone, _⟩ | ⟨_, bs, hbs, hlen, rfl | ⟨_, rfl⟩⟩⟩ := h.run_late (by omega) hrun
    · omega
    · exact ⟨bs, markedDisk_footprint (by omega) hbs hzero⟩
    · exact ⟨bs, filledDisk_footprint c.data c.size (by omega) hlen hbs hzero⟩

/-- **Run lemma.**  Runs of at most 106 calls are tidy. -/
theorem Reaches.tidy {calls : List AddCall} {disk : Bytes} (h : Reaches calls disk)
    (hlen : calls.length ≤ 106) : Tidy calls.length disk := by
  induction h with
  | format => exact Tidy.of_format
  | @call calls disk disk' c r before hrun ih =>
      simp only [List.length_cons] at hlen
      have hshort : calls.length < 106 := by omega
      have htidy := ih (by omega)
      obtain ⟨bs, hc⟩ := before.inv.footprint htidy hshort hrun
      exact htidy.step hshort hc

/-! ## Isolation -/

/-- A tidy disk of at most 106 calls keeps its files apart. -/
theorem Tidy.stateIsolated {m : Nat} {disk : Bytes} (ht : Tidy m disk) (h : Inv m disk)
    (hm : m ≤ 106) : StateIsolated disk := by
  have htotal : (sbTotalInodes disk).toNat = 512 := by rw [h.layout.totalInodes]; rfl
  have hblocks : (sbTotalBlocks disk).toNat = 4096 := by rw [h.layout.totalBlocks]; rfl
  have hused : ∀ i, i < (sbTotalInodes disk).toNat → bit disk inodeBitmap i = true → i ≤ m := by
    intro i hi hbit
    rw [h.inodeBits i (by omega)] at hbit
    exact of_decide_eq_true hbit
  refine ⟨?_, ?_, ?_⟩
  · intro i hi hbit j hj hne
    obtain ⟨hlo, hhi, hset⟩ := ht.owned i (hused i hi hbit) j hj hne
    exact ⟨hlo, UInt32.lt_iff_toNat_lt.mpr (by omega), hset⟩
  · intro i i' hi hi' hbit hbit' j j' hj hj' hne heq
    exact ht.distinct i i' (hused i hi hbit) (hused i' hi' hbit') j j' hj hj' hne heq
  · intro i hi hbit
    have := hused i hi hbit
    have haddr := inodeAddr_eq i
    simp only [fssoBlockSize, inodeSize]
    omega

/-- Every successful call adds a file: inode `m + 1` in slot `m`. -/
theorem Inv.addedBy {m : Nat} {disk disk' : Bytes} {c : AddCall} (h : Inv m disk)
    (hrun : c.run disk = some (0, disk')) : AddedBy disk c disk' (m + 1) m := by
  have hm : m < 3 := by
    apply Classical.byContradiction
    intro hge
    have hr := (h.run_late (by omega) hrun).1
    cases hr
  have hafter := h.step hrun
  have hfree : slotInode disk m = 0 := by
    apply Classical.byContradiction
    intro hused
    have := (h.slots m hm).mp hused
    omega
  obtain ⟨bs, hbs, hlen, _, _, rfl⟩ := h.run_early hm hrun
  have hfilled : Effect disk (m + 1) bs (filledDisk disk (m + 1) bs c.data c.size) :=
    filledDisk_effect c.data c.size (by omega) hlen hbs.range
  have hlayout := hfilled.layout h.layout (by omega) hbs.range
  have hroot := hlayout.rootBase_eq
  refine ⟨hrun, h.freeInode_eq (by omega), hm, ?_, ?_⟩
  · rw [h.layout.rootBase_eq]
    exact hfree
  · have hinode := linkEntry_inode (filledDisk disk (m + 1) bs c.data c.size) (m + 1) m
      bs.length c.name (by omega)
    rw [hroot] at hinode
    rw [hafter.layout.rootBase_eq]
    exact hinode

/-- What a recorded file says about the states after it. -/
theorem HasFile.bounds {calls : List AddCall} {n s : Nat} (h : HasFile calls n s) :
    1 ≤ n ∧ n ≤ calls.length ∧ s < 3 ∧ s < calls.length := by
  induction h with
  | @here calls disk disk' c n s before added =>
      have hinv := before.inv
      have hafter := hinv.step added.run
      have hshort : calls.length < 3 := (before.succeeds_iff added.run).mp rfl
      have hn := added.inode
      rw [hinv.freeInode_eq (by omega)] at hn
      cases hn
      have hslot := added.slot_used
      rw [hafter.layout.rootBase_eq] at hslot
      have hs : s < 3 := added.slot_lt
      have hused : slotInode disk' s ≠ 0 := by
        rw [slotInode, hslot]
        exact ofNat_ne_zero (by omega) (by omega)
      have hlt := (hafter.slots s hs).mp hused
      simp only [List.length_cons]
      omega
  | later _ ih =>
      simp only [List.length_cons]
      omega

/-- A call among the first 106 keeps every file. -/
theorem CallFootprint.fileKept {m n s : Nat} {disk disk' : Bytes} {bs : List Nat}
    (hc : CallFootprint disk (m + 1) bs disk') (ht : Tidy m disk) (h : Inv m disk) (hm : m < 106)
    (hpos : 1 ≤ n) (hn : n ≤ m) (hs : s < 3) (hsm : s < m) : FileKept disk disk' n s where
  record := by
    intro x hlo hhi
    have haddr := inodeAddr_eq n
    have haddr' := inodeAddr_eq (m + 1)
    have hsize : inodeSize = 76 := rfl
    have hdata : ∀ b ∈ bs, x < 1024 * b ∨ 1024 * b + 1024 ≤ x := by
      intro b hb
      have := (hc.chosen.range b hb).1
      omega
    exact hc.effect.kept x (by omega) (by omega) (by omega) hdata (by omega)
  blocks := by
    intro j hj hne x hlo hhi
    have hsize : fssoBlockSize = 1024 := rfl
    obtain ⟨hge, hlt, hset⟩ := ht.owned n hn j hj hne
    -- Block 11 belongs to the root directory and to no file.
    have hroot : pointer disk 0 0 = 11 :=
      (word32_congr fun x hx hx' => h.layout.root x (by simp only [inodeAddr_eq] at hx; omega)
        (by simp only [inodeAddr_eq] at hx'; omega)).trans (by decide)
    have hne11 : (pointer disk n j).toNat ≠ 11 := by
      intro heq
      have hsame : pointer disk n j = pointer disk 0 0 := by
        rw [hroot]
        exact UInt32.toNat_inj.mp heq
      have := (ht.distinct n 0 hn (by omega) j 0 hj (by decide) hne hsame).1
      omega
    have hdata : ∀ b ∈ bs, x < 1024 * b ∨ 1024 * b + 1024 ≤ x := by
      intro b hb
      have hforeign : b ≠ (pointer disk n j).toNat := by
        intro heq
        subst heq
        rw [hc.chosen.clear _ hb] at hset
        cases hset
      rw [blockAddr_lt_of_small (by omega)] at hlo hhi
      omega
    have haddr' := inodeAddr_eq (m + 1)
    rw [blockAddr_lt_of_small (by omega)] at hlo hhi
    exact hc.effect.kept x (by omega) (by omega) (by omega) hdata (by omega)
  entry := by
    rw [h.layout.rootBase_eq]
    exact hc.entries s hs ((h.slots s hs).mpr hsm)

/-- Every run of at most 106 calls keeps its files apart, at every prefix. -/
theorem runIsolated_of_short {calls : List AddCall} (hlen : calls.length ≤ 106) :
    RunIsolated calls where
  states := by
    intro earlier hsuffix disk hreach
    have hle := hsuffix.length_le
    exact (hreach.tidy (by omega)).stateIsolated hreach.inv (by omega)
  steps := by
    intro c earlier hsuffix disk disk' r hreach hrun n s hfile
    have hle := hsuffix.length_le
    simp only [List.length_cons] at hle
    have htidy := hreach.tidy (by omega)
    obtain ⟨bs, hc⟩ := hreach.inv.footprint htidy (by omega) hrun
    obtain ⟨hpos, hn, hs, hsm⟩ := hfile.bounds
    exact hc.fileKept htidy hreach.inv (by omega) hpos hn hs hsm

/-- Calls with at most 12 blocks of data are always defined. -/
theorem AddCall.run_isSome {c : AddCall} (hsize : c.size.toNat ≤ 12 * 1024) (disk : Bytes) :
    (c.run disk).isSome := by
  have hneeded : blocksNeeded c.size ≤ 12 := by
    rw [blocksNeeded_eq (by omega)]
    omega
  rw [AddCall.run]
  cases hn : freeInode disk with
  | none => simp [fssoAddFile, hn]
  | some n =>
      have hlen : (chosenBlocks (setBit disk inodeBitmap n) c.size).length ≤ 12 :=
        Nat.le_trans (List.length_take_le _ _) hneeded
      rw [fssoAddFile_of_free c.name c.data c.size hn]
      simp only [if_pos hlen]
      split <;> rfl

/-- A file of at most 12 blocks is accepted while a slot is free. -/
theorem Reaches.succeeds {calls : List AddCall} {disk : Bytes} {c : AddCall}
    (h : Reaches calls disk) (hlen : calls.length < 3) (hsize : c.size.toNat ≤ 12 * 1024) :
    ∃ disk', c.run disk = some (0, disk') := by
  obtain ⟨⟨r, disk'⟩, hrun⟩ := Option.isSome_iff_exists.mp (AddCall.run_isSome hsize disk)
  have hr : r = 0 := (h.succeeds_iff hrun).mpr hlen
  subst hr
  exact ⟨disk', hrun⟩

/-- Calls with sizes up to twelve blocks never run into the undefined store. -/
theorem exists_reaches {calls : List AddCall}
    (hsmall : ∀ c ∈ calls, c.size.toNat ≤ 12 * 1024) : ∃ disk, Reaches calls disk := by
  induction calls with
  | nil => exact ⟨mkfssoFormat, Reaches.format⟩
  | cons c calls ih =>
      obtain ⟨disk, hreach⟩ := ih fun c' hc' => hsmall c' (List.mem_cons_of_mem _ hc')
      obtain ⟨⟨r, disk'⟩, hrun⟩ :=
        Option.isSome_iff_exists.mp (AddCall.run_isSome (hsmall c List.mem_cons_self) disk)
      exact ⟨disk', Reaches.call hreach hrun⟩

/-- After 107 calls inode 107 is in use and its record leaves block 10. -/
theorem not_stateIsolated_of_107 {calls : List AddCall} {disk : Bytes} (h : Reaches calls disk)
    (hlen : calls.length = 107) : ¬ StateIsolated disk := by
  intro hisolated
  have hinv := h.inv
  have htotal : (sbTotalInodes disk).toNat = 512 := by rw [hinv.layout.totalInodes]; rfl
  have hbit : bit disk inodeBitmap 107 = true := by
    rw [hinv.inodeBits 107 (by decide), hlen]
    decide
  have := (hisolated.records 107 (by omega) hbit).2
  simp only [inodeAddr_eq, inodeSize, fssoBlockSize] at this
  omega

/-- From the 107th call on a record lies beyond the inode table. -/
theorem not_runIsolated_of_long {calls : List AddCall}
    (hsmall : ∀ c ∈ calls, c.size.toNat ≤ 12 * 1024) (hlen : 106 < calls.length) :
    ¬ RunIsolated calls := by
  intro hisolated
  have hsuffix : calls.drop (calls.length - 107) <:+ calls := List.drop_suffix _ _
  have hlen' : (calls.drop (calls.length - 107)).length = 107 := by
    rw [List.length_drop]
    omega
  obtain ⟨disk, hreach⟩ := exists_reaches fun c hc => hsmall c (hsuffix.subset hc)
  exact not_stateIsolated_of_107 hreach hlen' (hisolated.states _ hsuffix disk hreach)

/-- **Isolation of files.**  A run of calls with at most 12 blocks of data each
is isolated throughout exactly when it makes at most 106 calls. -/
theorem runIsolated_iff {calls : List AddCall}
    (hsmall : ∀ c ∈ calls, c.size.toNat ≤ 12 * 1024) :
    RunIsolated calls ↔ calls.length ≤ 106 := by
  constructor
  · intro hisolated
    apply Classical.byContradiction
    intro hlong
    exact not_runIsolated_of_long hsmall (by omega) hisolated
  · exact runIsolated_of_short

/-- Adding an empty file named `a`. -/
def emptyCall : AddCall := ⟨[97], fun _ => 0, 0⟩

theorem emptyCalls_small (k : Nat) :
    ∀ c ∈ List.replicate k emptyCall, c.size.toNat ≤ 12 * 1024 := by
  intro c hc
  rw [List.eq_of_mem_replicate hc]
  decide

/-- A file of three blocks of data after one that is as large as a file can be, and an empty
one between them. -/
def dataCalls : List AddCall :=
  [⟨[98], fun i => UInt8.ofNat i, 3000⟩, emptyCall, ⟨[99], fun _ => 255, 12288⟩]

/-- Two files with data, and the law at them. -/
theorem runIsolated_of_dataCalls : RunIsolated dataCalls := by
  refine (runIsolated_iff fun c hc => ?_).mpr (by decide)
  simp only [dataCalls, List.mem_cons, List.not_mem_nil, or_false] at hc
  rcases hc with rfl | rfl | rfl
  · decide
  · decide
  · decide

theorem emptyCalls_not_isolated : ¬ RunIsolated (List.replicate 107 emptyCall) :=
  not_runIsolated_of_long (emptyCalls_small 107) (by decide)

end Fsso
