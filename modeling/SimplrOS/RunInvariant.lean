import SimplrOS.ImageRuns

/-!
# The invariant of mkfsso runs

`Inv m` holds after `m` calls, `Inv.step` is the step lemma and `Reaches.inv`
the run lemma.  The step splits at `m = 3`: before, the call succeeds and takes
root slot `m`; from then on all three slots are in use and stay in use, so the
call fails.
-/

namespace Fsso

open ByteStore

/-- The inode field of root slot `s`. -/
def slotInode (disk : Bytes) (s : Nat) : UInt32 := word32 disk (entryAddr 11264 s)

/-- The state after `m` calls. -/
structure Inv (m : Nat) (disk : Bytes) : Prop where
  layout : Layout disk
  inodeBits : ∀ i, i < 512 → bit disk inodeBitmap i = decide (i ≤ m)
  slots : ∀ s, s < 3 → (slotInode disk s ≠ 0 ↔ s < m)
  room : 4084 ≤ clearCount disk blockBitmap 4096 + 12 * m
  inodeCounter : (sbFreeInodes disk).toNat + min m 3 = 511
  blockCounter : clearCount disk blockBitmap 4096 + 1 ≤ (sbFreeBlocks disk).toNat

theorem Inv.of_format : Inv 0 mkfssoFormat where
  layout := Layout.of_format
  inodeBits := by
    intro i hi
    rw [mkfssoFormat_inodeBit i hi]
    simp
  slots := by
    intro s _
    have hzero : slotInode mkfssoFormat s = 0 := by
      have haddr := entryAddr_eq 11264 s
      have hsame : SameOn mkfssoFormat (fun _ => 0) (entryAddr 11264 s) 4 :=
        fun x _ _ => mkfssoFormat_zero (by omega) (by omega) (by omega) (by omega) (by omega)
      rw [slotInode, word32_congr hsame]
      rfl
    simp [hzero]
  room := by rw [mkfssoFormat_clearBlocks]
  inodeCounter := by decide
  blockCounter := by rw [mkfssoFormat_clearBlocks]; decide

/-- Call number `m + 1` takes inode `m + 1`. -/
theorem Inv.freeInode_eq {m : Nat} {disk : Bytes} (h : Inv m disk) (hm : m < 511) :
    freeInode disk = some (m + 1) := by
  have htotal : (sbTotalInodes disk).toNat = 512 := by rw [h.layout.totalInodes]; rfl
  apply firstClear_of_lowest
  · omega
  · omega
  · rw [h.inodeBits (m + 1) (by omega)]
    simp
  · intro j _ hj
    rw [h.inodeBits j (by omega), decide_eq_true (by omega)]

/-- After 511 files no inode is free. -/
theorem Inv.freeInode_none {m : Nat} {disk : Bytes} (h : Inv m disk) (hm : 511 ≤ m) :
    freeInode disk = none := by
  have htotal : (sbTotalInodes disk).toNat = 512 := by rw [h.layout.totalInodes]; rfl
  cases hfree : freeInode disk with
  | none => rfl
  | some n =>
      obtain ⟨_, hhi, hclear, _⟩ := firstClear_eq_some hfree
      rw [h.inodeBits n (by omega), decide_eq_true (by omega)] at hclear
      cases hclear

/-- The scan looks at the three slots of the root's block. -/
theorem freeSlot_filled {disk : Bytes} (h : Layout disk) :
    freeSlot disk = findSlot disk 11264 0 3 := by
  rw [freeSlot, h.rootBase_eq]
  rfl

/-! ## What happens to the root slots -/

theorem slotInode_of_same {disk disk' : Bytes} {s : Nat}
    (h : SameOn disk' disk (11264 + 260 * s) 4) : slotInode disk' s = slotInode disk s :=
  word32_congr (by rw [entryAddr_eq]; exact h)

theorem markedDisk_slot {disk : Bytes} {n : Nat} {bs : List Nat} (hn : n < 512)
    (hbs : ∀ b ∈ bs, 12 ≤ b ∧ b < 4096) (s : Nat) :
    slotInode (markedDisk disk n bs) s = slotInode disk s := by
  apply slotInode_of_same
  intro x _ _
  have hbits : ∀ b ∈ bs, x ≠ 2048 + b / 8 := by
    intro b hb
    have := (hbs b hb).2
    omega
  exact markedDisk_of_out _ (by omega) hbits

/-- A slot whose inode field lies outside the inode record is kept. -/
theorem filledDisk_slot {disk : Bytes} {n : Nat} {bs : List Nat} (data : Bytes)
    (size : UInt32) (hn : n < 512) (hlen : bs.length ≤ 12)
    (hbs : ∀ b ∈ bs, 12 ≤ b ∧ b < 4096) {s : Nat} (hs : s < 3)
    (hout : 11264 + 260 * s + 4 ≤ inodeAddr n ∨ inodeAddr n + 76 ≤ 11264 + 260 * s) :
    slotInode (filledDisk disk n bs data size) s = slotInode disk s := by
  apply slotInode_of_same
  intro x _ _
  have hdata : ∀ b ∈ bs, x < 1024 * b ∨ 1024 * b + 1024 ≤ x := by
    intro b hb
    have := (hbs b hb).1
    omega
  exact filledDisk_of_out data size hlen hbs hn (by omega) hdata (by omega)

/-- A used slot stays used.  The only records that meet a slot's inode field are
those of inodes 107, 111 and 114, and what they put there is a direct pointer,
hence the number of a collected block. -/
theorem filledDisk_slot_used {disk : Bytes} {n : Nat} {bs : List Nat} (data : Bytes)
    (size : UInt32) (hn : n < 512) (hlen : bs.length ≤ 12)
    (hbs : ∀ b ∈ bs, 12 ≤ b ∧ b < 4096) {s : Nat} (hs : s < 3)
    (hused : slotInode disk s ≠ 0) :
    slotInode (filledDisk disk n bs data size) s ≠ 0 := by
  have haddr := inodeAddr_eq n
  by_cases hout : 11264 + 260 * s + 4 ≤ inodeAddr n ∨ inodeAddr n + 76 ≤ 11264 + 260 * s
  · rw [filledDisk_slot data size hn hlen hbs hs hout]
    exact hused
  · obtain ⟨j, hj⟩ : ∃ j, 11264 + 260 * s = inodeAddr n + 16 + 4 * j := by
      refine ⟨(11264 + 260 * s - inodeAddr n - 16) / 4, ?_⟩
      have hcases : s = 0 ∨ s = 1 ∨ s = 2 := by omega
      rcases hcases with rfl | rfl | rfl <;> omega
    have hslot : slotInode (filledDisk disk n bs data size) s =
        pointer (filledDisk disk n bs data size) n j := by
      rw [slotInode, entryAddr_eq, hj, pointer]
    rw [hslot, filledDisk, pointer_writeInode]
    split
    · rename_i hjlen
      obtain ⟨hlo, hhi⟩ := hbs bs[j] (List.getElem_mem hjlen)
      exact ofNat_ne_zero (by omega) (by omega)
    · have hkept : pointer (writeData size data 0 bs (markedDisk disk n bs)) n j =
          slotInode disk s := by
        have hmarked : slotInode (markedDisk disk n bs) s = _ := markedDisk_slot hn hbs s
        rw [← hmarked, slotInode, entryAddr_eq, hj, pointer]
        apply word32_congr
        intro x _ _
        apply writeData_of_out
        intro b hb
        have := hbs b hb
        omega
      rw [hkept]
      exact hused

/-- Linking fills its own slot and no other. -/
theorem linkEntry_slot {disk : Bytes} (h : Layout disk) (name : List UInt8)
    {n slot found : Nat} (hn : n < 4294967296) (hpos : 1 ≤ n) (s : Nat) :
    slotInode (linkEntry disk n slot name found) s ≠ 0 ↔ s = slot ∨ slotInode disk s ≠ 0 := by
  have hroot := h.rootBase_eq
  by_cases hs : s = slot
  · subst hs
    have hinode := linkEntry_inode disk n s found name (by omega)
    have hne : UInt32.ofNat n ≠ 0 := ofNat_ne_zero hpos hn
    rw [hroot] at hinode
    simp [slotInode, hinode, hne]
  · have hkept : slotInode (linkEntry disk n slot name found) s = slotInode disk s := by
      apply slotInode_of_same
      intro x _ _
      have haddr := entryAddr_eq 11264 slot
      exact linkEntry_of_out disk name (by omega) (by rw [hroot]; omega)
    simp [hkept, hs]

/-- Linking an entry leaves the bitmaps and everything above the root block
alone. -/
theorem linkEntry_effect {disk filled : Bytes} {n slot found : Nat} {bs : List Nat}
    (name : List UInt8) (he : Effect disk n bs filled) (h : Layout filled) (hslot : slot < 3) :
    Effect disk n bs (linkEntry filled n slot name found) := by
  have hroot := h.rootBase_eq
  have haddr := entryAddr_eq 11264 slot
  have hsame : ∀ x, x < 20 ∨ 28 ≤ x → x < 11264 ∨ 12288 ≤ x →
      linkEntry filled n slot name found x = filled x := by
    intro x hcount hdir
    exact linkEntry_of_out filled name hcount (by rw [hroot]; omega)
  refine ⟨?_, ?_, ?_⟩
  · intro i hi
    have hmap : inodeBitmap = 1024 := rfl
    rw [← he.inodeBits i hi]
    exact bit_congr (hsame _ (by omega) (by omega))
  · intro i hi
    have hmap : blockBitmap = 2048 := rfl
    rw [← he.blockBits i hi]
    exact bit_congr (hsame _ (by omega) (by omega))
  · intro x hcount hmap hdir hdata hrecord
    rw [hsame x hcount hdir]
    exact he.kept x hcount hmap hdir hdata hrecord

/-! ## The step -/

/-- Facts about a call that takes inode `m + 1`, whatever its outcome. -/
theorem Inv.effect {m : Nat} {disk disk' : Bytes} {bs : List Nat} (h : Inv m disk)
    (he : Effect disk (m + 1) bs disk') (hbs : Chosen disk bs) (hlen : bs.length ≤ 12) :
    Layout disk' ∧ (∀ i, i < 512 → bit disk' inodeBitmap i = decide (i ≤ m + 1)) ∧
      4084 ≤ clearCount disk' blockBitmap 4096 + 12 * (m + 1) ∧
      clearCount disk' blockBitmap 4096 + bs.length = clearCount disk blockBitmap 4096 := by
  have hcount := he.clearCount hbs
  have hroom := h.room
  refine ⟨he.layout h.layout (by omega) hbs.range, ?_, by omega, hcount⟩
  intro i hi
  rw [he.inodeBits i hi, h.inodeBits i hi, ← Bool.decide_or]
  congr 1
  exact propext ⟨fun hor => by omega, fun hle => by omega⟩

/-- **The first three calls.**  They have an inode, blocks and a root slot, so
they succeed, and the slot is number `m`. -/
theorem Inv.run_early {m : Nat} {disk disk' : Bytes} {c : AddCall} {r : Int} (h : Inv m disk)
    (hm : m < 3) (hrun : c.run disk = some (r, disk')) :
    ∃ bs, Chosen disk bs ∧ bs.length ≤ 12 ∧ bs.length = blocksNeeded c.size ∧ r = 0 ∧
      disk' = linkEntry (filledDisk disk (m + 1) bs c.data c.size) (m + 1) m c.name bs.length := by
  obtain ⟨hnone, _, _⟩ | ⟨n, bs, hn, hchosen, hlen, hexit⟩ := fssoAddFile_cases hrun
  · rw [h.freeInode_eq (by omega)] at hnone
    cases hnone
  · rw [h.freeInode_eq (by omega)] at hn
    cases hn
    have hbs : Chosen disk bs := by
      rw [hchosen]
      exact chosenBlocks_chosen h.layout (by omega) c.size
    have hroom := h.room
    have he : Effect disk (m + 1) bs (filledDisk disk (m + 1) bs c.data c.size) :=
      filledDisk_effect c.data c.size (by omega) hlen hbs.range
    have hlayout := he.layout h.layout (by omega) hbs.range
    have haddr := inodeAddr_eq (m + 1)
    have hslots : ∀ s, s < 3 →
        slotInode (filledDisk disk (m + 1) bs c.data c.size) s = slotInode disk s :=
      fun s hs => filledDisk_slot c.data c.size (by omega) hlen hbs.range hs (by omega)
    obtain ⟨hshort, _, _⟩ | ⟨_, hfull, _, _⟩ | ⟨slot, hexact, hslot, hr, hdisk'⟩ := hexit
    · rw [hchosen] at hshort
      have hall := chosenBlocks_short h.layout (by omega) hshort
      rw [← hchosen] at hall
      omega
    · rw [freeSlot_filled hlayout] at hfull
      have hused := findSlot_eq_none hfull m (by omega) (by omega)
      change slotInode _ m ≠ 0 at hused
      rw [hslots m hm, h.slots m hm] at hused
      omega
    · rw [freeSlot_filled hlayout] at hslot
      obtain ⟨_, hlt, hfree, hbelow⟩ := findSlot_eq_some hslot
      have hge : ¬ slot < m := by
        intro hslotm
        have hused := (h.slots slot (by omega)).mpr hslotm
        rw [← hslots slot (by omega)] at hused
        exact hused hfree
      have hle : ¬ m < slot := by
        intro hmslot
        have hused := hbelow m (by omega) hmslot
        change slotInode _ m ≠ 0 at hused
        rw [hslots m hm, h.slots m hm] at hused
        omega
      have hslotm : slot = m := by omega
      subst hslotm
      exact ⟨bs, hbs, hlen, hexact, hr, hdisk'⟩

/-- **All later calls.**  While inodes are left they take one and fail, for lack
of blocks or of a root slot; afterwards they change nothing. -/
theorem Inv.run_late {m : Nat} {disk disk' : Bytes} {c : AddCall} {r : Int} (h : Inv m disk)
    (hm : 3 ≤ m) (hrun : c.run disk = some (r, disk')) :
    r = -1 ∧ ((511 ≤ m ∧ disk' = disk) ∨
      (m < 511 ∧ ∃ bs, Chosen disk bs ∧ bs.length ≤ 12 ∧
        (disk' = markedDisk disk (m + 1) bs ∨
         (bs.length = blocksNeeded c.size ∧
          disk' = filledDisk disk (m + 1) bs c.data c.size)))) := by
  obtain ⟨hnone, hr, hdisk'⟩ | ⟨n, bs, hn, hchosen, hlen, hexit⟩ := fssoAddFile_cases hrun
  · refine ⟨hr, Or.inl ⟨?_, hdisk'⟩⟩
    apply Classical.byContradiction
    intro hlt
    rw [h.freeInode_eq (by omega)] at hnone
    cases hnone
  · have hm511 : m < 511 := by
      apply Classical.byContradiction
      intro hge
      rw [h.freeInode_none (by omega)] at hn
      cases hn
    rw [h.freeInode_eq hm511] at hn
    cases hn
    have hbs : Chosen disk bs := by
      rw [hchosen]
      exact chosenBlocks_chosen h.layout (by omega) c.size
    have he : Effect disk (m + 1) bs (filledDisk disk (m + 1) bs c.data c.size) :=
      filledDisk_effect c.data c.size (by omega) hlen hbs.range
    have hlayout := he.layout h.layout (by omega) hbs.range
    obtain ⟨_, hr, hdisk'⟩ | ⟨hexact, _, hr, hdisk'⟩ | ⟨slot, _, hslot, _, _⟩ := hexit
    · exact ⟨hr, Or.inr ⟨hm511, bs, hbs, hlen, Or.inl hdisk'⟩⟩
    · exact ⟨hr, Or.inr ⟨hm511, bs, hbs, hlen, Or.inr ⟨hexact, hdisk'⟩⟩⟩
    · rw [freeSlot_filled hlayout] at hslot
      obtain ⟨_, hlt, hfree, _⟩ := findSlot_eq_some hslot
      have hused := (h.slots slot (by omega)).mpr (by omega)
      exact absurd hfree
        (filledDisk_slot_used c.data c.size (by omega) hlen hbs.range (by omega) hused)

/-- A failing call that took an inode keeps the slots, the counters and the rest
of the invariant. -/
theorem Inv.keep_late {m : Nat} {disk disk' : Bytes} {bs : List Nat} (h : Inv m disk)
    (hm : 3 ≤ m) (he : Effect disk (m + 1) bs disk') (hbs : Chosen disk bs)
    (hlen : bs.length ≤ 12) (hhead : SameOn disk' disk 20 8)
    (hslots : ∀ s, s < 3 → slotInode disk' s ≠ 0) : Inv (m + 1) disk' := by
  obtain ⟨hlayout, hinodes, hroom, hcount⟩ := h.effect he hbs hlen
  have hinodeCounter : sbFreeInodes disk' = sbFreeInodes disk :=
    word32_congr fun x _ _ => hhead x (by omega) (by omega)
  have hblockCounter : sbFreeBlocks disk' = sbFreeBlocks disk :=
    word32_congr fun x _ _ => hhead x (by omega) (by omega)
  refine ⟨hlayout, hinodes, ?_, hroom, ?_, ?_⟩
  · intro s hs
    exact ⟨fun _ => by omega, fun _ => hslots s hs⟩
  · have := h.inodeCounter
    rw [hinodeCounter]
    omega
  · have := h.blockCounter
    rw [hblockCounter]
    omega

/-- One of the first three calls keeps the invariant. -/
theorem Inv.step_early {m : Nat} {disk disk' : Bytes} {c : AddCall} {r : Int} (h : Inv m disk)
    (hm : m < 3) (hrun : c.run disk = some (r, disk')) : Inv (m + 1) disk' := by
  obtain ⟨bs, hbs, hlen, _, _, rfl⟩ := h.run_early hm hrun
  have hfilled : Effect disk (m + 1) bs (filledDisk disk (m + 1) bs c.data c.size) :=
    filledDisk_effect c.data c.size (by omega) hlen hbs.range
  have hfilledLayout := hfilled.layout h.layout (by omega) hbs.range
  have he : Effect disk (m + 1) bs
      (linkEntry (filledDisk disk (m + 1) bs c.data c.size) (m + 1) m c.name bs.length) :=
    linkEntry_effect c.name hfilled hfilledLayout hm
  obtain ⟨hlayout, hinodes, hroom, hcount⟩ := h.effect he hbs hlen
  have haddr := inodeAddr_eq (m + 1)
  have hroot := hfilledLayout.rootBase_eq
  obtain ⟨hfreeInodes, hfreeBlocks⟩ :=
    linkEntry_counters (filledDisk disk (m + 1) bs c.data c.size) (m + 1) m bs.length c.name
      (by omega)
  have hhead : SameOn (filledDisk disk (m + 1) bs c.data c.size) disk 20 8 := by
    intro x _ hx
    have hdata : ∀ b ∈ bs, x < 1024 * b ∨ 1024 * b + 1024 ≤ x := by
      intro b hb
      have := (hbs.range b hb).1
      omega
    exact filledDisk_of_out _ _ hlen hbs.range (by omega) (by omega) hdata (by omega)
  have hinodeCounter : sbFreeInodes (filledDisk disk (m + 1) bs c.data c.size) =
      sbFreeInodes disk := word32_congr fun x _ _ => hhead x (by omega) (by omega)
  have hblockCounter : sbFreeBlocks (filledDisk disk (m + 1) bs c.data c.size) =
      sbFreeBlocks disk := word32_congr fun x _ _ => hhead x (by omega) (by omega)
  refine ⟨hlayout, hinodes, ?_, hroom, ?_, ?_⟩
  · intro s hs
    rw [linkEntry_slot hfilledLayout c.name (by omega) (by omega),
      filledDisk_slot c.data c.size (by omega) hlen hbs.range hs (by omega), h.slots s hs]
    omega
  · have hold := h.inodeCounter
    have hge : (1 : UInt32) ≤ sbFreeInodes disk := UInt32.le_iff_toNat_le.mpr (by
      simp only [UInt32.reduceToNat]; omega)
    rw [hfreeInodes, hinodeCounter, UInt32.toNat_sub_of_le _ _ hge]
    simp only [UInt32.reduceToNat]
    omega
  · have hold := h.blockCounter
    have hfound : (UInt32.ofNat bs.length).toNat = bs.length := by
      rw [UInt32.toNat_ofNat']
      omega
    have hge : UInt32.ofNat bs.length ≤ sbFreeBlocks disk :=
      UInt32.le_iff_toNat_le.mpr (by omega)
    rw [hfreeBlocks, hblockCounter, UInt32.toNat_sub_of_le _ _ hge]
    omega

/-- A later call keeps it. -/
theorem Inv.step_late {m : Nat} {disk disk' : Bytes} {c : AddCall} {r : Int} (h : Inv m disk)
    (hm : 3 ≤ m) (hrun : c.run disk = some (r, disk')) : Inv (m + 1) disk' := by
  have hused : ∀ s, s < 3 → slotInode disk s ≠ 0 := fun s hs => (h.slots s hs).mpr (by omega)
  obtain ⟨_, ⟨hdone, rfl⟩ | ⟨hm511, bs, hbs, hlen, rfl | ⟨_, rfl⟩⟩⟩ := h.run_late hm hrun
  · have := h.room
    have := h.inodeCounter
    refine ⟨h.layout, ?_, ?_, by omega, by omega, h.blockCounter⟩
    · intro i hi
      rw [h.inodeBits i hi, decide_eq_true (by omega), decide_eq_true (by omega)]
    · intro s hs
      exact ⟨fun _ => by omega, fun _ => hused s hs⟩
  · refine h.keep_late hm (markedDisk_effect (by omega) hbs.range) hbs hlen ?_ ?_
    · intro x _ hx
      have hbits : ∀ b ∈ bs, x ≠ 2048 + b / 8 := fun b _ => by omega
      exact markedDisk_of_out _ (by omega) hbits
    · intro s hs
      rw [markedDisk_slot (by omega) hbs.range]
      exact hused s hs
  · have haddr := inodeAddr_eq (m + 1)
    refine h.keep_late hm (filledDisk_effect _ _ (by omega) hlen hbs.range) hbs hlen ?_ ?_
    · intro x _ hx
      have hdata : ∀ b ∈ bs, x < 1024 * b ∨ 1024 * b + 1024 ≤ x := by
        intro b hb
        have := (hbs.range b hb).1
        omega
      exact filledDisk_of_out _ _ hlen hbs.range (by omega) (by omega) hdata (by omega)
    · intro s hs
      exact filledDisk_slot_used _ _ (by omega) hlen hbs.range hs (hused s hs)

/-- **Step lemma.** -/
theorem Inv.step {m : Nat} {disk disk' : Bytes} {c : AddCall} {r : Int} (h : Inv m disk)
    (hrun : c.run disk = some (r, disk')) : Inv (m + 1) disk' := by
  by_cases hm : m < 3
  · exact h.step_early hm hrun
  · exact h.step_late (by omega) hrun

/-- **Run lemma.**  After `m` calls the invariant of `m` calls holds. -/
theorem Reaches.inv {calls : List AddCall} {disk : Bytes} (h : Reaches calls disk) :
    Inv calls.length disk := by
  induction h with
  | format => exact Inv.of_format
  | call _ hrun ih => exact ih.step hrun

/-- Exactly the first three calls of a run succeed. -/
theorem Reaches.succeeds_iff {calls : List AddCall} {disk disk' : Bytes} {c : AddCall} {r : Int}
    (h : Reaches calls disk) (hrun : c.run disk = some (r, disk')) :
    r = 0 ↔ calls.length < 3 := by
  by_cases hm : calls.length < 3
  · obtain ⟨_, _, _, _, hr, _⟩ := h.inv.run_early hm hrun
    exact ⟨fun _ => hm, fun _ => hr⟩
  · obtain ⟨hr, _⟩ := h.inv.run_late (by omega) hrun
    subst hr
    exact ⟨fun hbad => absurd hbad (by decide), fun hlt => absurd hlt hm⟩

end Fsso
