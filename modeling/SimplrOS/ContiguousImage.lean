import SimplrOS.Placement
import SimplrOS.RootNames
import SimplrOS.SizeLimit

/-!
# The image is a bump arena

The allocator of `fsso_add_file` is first-fit over a bitmap, and nothing ever
clears a bit.  So the set bits are always an initial segment and every call takes
the next blocks: `nextBlock` is where the free part begins after a run, for runs of
any length.

As long as the inode table stays in its blocks, which is for 106 calls, this fixes
every byte of the data area: `Contiguous` gives the inode records, the data blocks
and the blank rest in terms of the calls alone.  Only the first three calls are
linked into the root directory, so the blocks of all later ones are marked but
unreachable.
-/

namespace Fsso

open ByteStore

/-- The block behind the last one that a run has taken.  The inodes are used up
after 511 calls. -/
def nextBlock : List AddCall → Nat
  | [] => 12
  | c :: earlier =>
      if earlier.length < 511 then min 4096 (nextBlock earlier + blocksNeeded c.size)
      else nextBlock earlier

/-- The calls of a run that get a root entry. -/
def linkedCalls (calls : List AddCall) : List AddCall := calls.drop (calls.length - 3)

/-- The record of a file whose blocks begin at `first`. -/
def fileRecord (first : Nat) (c : AddCall) : FssoInode where
  size := c.size
  created := 0
  modified := 0
  type := fssoTypeFile
  reserved := Vector.ofFn fun _ => 0
  direct := Vector.ofFn fun j =>
    if j.val < blocksNeeded c.size then UInt32.ofNat (first + j.val) else 0
  indirect := 0
  doubleIndirect := 0
  tripleIndirect := 0

/-- Every record, data block and blank byte of an image in terms of the calls.
The last block of a file is filled up with zeros. -/
structure Contiguous (calls : List AddCall) (disk : Bytes) : Prop where
  fits : ∀ c earlier, c :: earlier <:+ calls → blocksNeeded c.size ≤ 12 ∧
    nextBlock (c :: earlier) = nextBlock earlier + blocksNeeded c.size
  records : ∀ c earlier, c :: earlier <:+ calls →
    inodeAt disk (inodeAddr (earlier.length + 1)) = fileRecord (nextBlock earlier) c
  data : ∀ c earlier, c :: earlier <:+ calls → ∀ x, x < 1024 * blocksNeeded c.size →
    disk (1024 * nextBlock earlier + x) = if x < c.size.toNat then c.data x else 0
  blank : ∀ x, 1024 * nextBlock calls ≤ x → x < 4194304 → disk x = 0

/-! ## First-fit without release -/

/-- On an initial segment the scan list is the rest. -/
theorem clearFrom_of_initial {s : Bytes} {base i k n : Nat} (hik : i ≤ k) (hkn : k ≤ n)
    (hbits : ∀ b, b < n → bit s base b = decide (b < k)) :
    clearFrom s base i (n - i) = List.range' k (n - k) := by
  have hsplit : List.range' i (n - i) = List.range' i (k - i) ++ List.range' k (n - k) := by
    have hlen : n - i = (k - i) + (n - k) := by omega
    have hstart : k = i + (k - i) := by omega
    rw [hlen, List.range'_append_1.symm, ← hstart]
  have hused : (List.range' i (k - i)).filter (fun j => !bit s base j) = [] := by
    apply List.filter_eq_nil_iff.mpr
    intro j hj
    obtain ⟨_, hhi⟩ := List.mem_range'_1.mp hj
    have hjk : j < k := by omega
    rw [hbits j (by omega), decide_eq_true hjk]
    decide
  have hfree : (List.range' k (n - k)).filter (fun j => !bit s base j) =
      List.range' k (n - k) := by
    apply List.filter_eq_self.mpr
    intro j hj
    obtain ⟨hlo, hhi⟩ := List.mem_range'_1.mp hj
    have hjk : ¬ j < k := by omega
    rw [hbits j (by omega), decide_eq_false hjk]
    rfl
  rw [clearFrom, hsplit, List.filter_append, hused, hfree, List.nil_append]

/-- A call takes the next blocks, as many as it needs and as there are. -/
theorem chosenBlocks_next {disk : Bytes} (h : Layout disk) {k n : Nat} (hlo : 12 ≤ k)
    (hhi : k ≤ 4096) (hbits : ∀ b, b < 4096 → bit disk blockBitmap b = decide (b < k))
    (hn : n < 512) (size : UInt32) :
    chosenBlocks (setBit disk inodeBitmap n) size =
      List.range' k (min (blocksNeeded size) (4096 - k)) := by
  have hclear : clearFrom disk blockBitmap 11 4085 = List.range' k (4096 - k) :=
    clearFrom_of_initial (show 11 ≤ k by omega) hhi hbits
  rw [chosenBlocks_eq h hn, hclear]
  by_cases hfits : blocksNeeded size ≤ 4096 - k
  · rw [List.take_range'_of_length_ge hfits, Nat.min_eq_left hfits]
  · rw [List.take_range'_of_length_le (by omega), Nat.min_eq_right (by omega)]

/-- Every call that finds an inode has the effect of its blocks, on all exits. -/
theorem Inv.call_effect {m : Nat} {disk disk' : Bytes} {c : AddCall} {r : Int} (h : Inv m disk)
    (hm : m < 511) (hrun : c.run disk = some (r, disk')) :
    Effect disk (m + 1) (chosenBlocks (setBit disk inodeBitmap (m + 1)) c.size) disk' ∧
      (chosenBlocks (setBit disk inodeBitmap (m + 1)) c.size).length ≤ 12 := by
  obtain ⟨hnone, _, _⟩ | ⟨n, bs, hn, hchosen, hlen, hexit⟩ := fssoAddFile_cases hrun
  · rw [h.freeInode_eq hm] at hnone
    cases hnone
  · rw [h.freeInode_eq hm] at hn
    cases hn
    have hbs : Chosen disk bs := by
      rw [hchosen]
      exact chosenBlocks_chosen h.layout (by omega) c.size
    have hfilled : Effect disk (m + 1) bs (filledDisk disk (m + 1) bs c.data c.size) :=
      filledDisk_effect c.data c.size (by omega) hlen hbs.range
    have hlayout := hfilled.layout h.layout (by omega) hbs.range
    rw [← hchosen]
    refine ⟨?_, hlen⟩
    obtain ⟨_, _, rfl⟩ | ⟨_, _, _, rfl⟩ | ⟨slot, _, hslot, _, rfl⟩ := hexit
    · exact markedDisk_effect (by omega) hbs.range
    · exact hfilled
    · rw [freeSlot_filled hlayout] at hslot
      obtain ⟨_, hlt, _, _⟩ := findSlot_eq_some hslot
      exact linkEntry_effect c.name hfilled hlayout (by omega)

/-- The free part begins behind the root directory and in the disk. -/
theorem nextBlock_bounds (calls : List AddCall) :
    12 ≤ nextBlock calls ∧ nextBlock calls ≤ 4096 := by
  induction calls with
  | nil => exact ⟨Nat.le_refl 12, by decide⟩
  | cons c earlier ih =>
      rw [nextBlock]
      split <;> omega

/-- **Bump allocation.**  After any run of any length the marked blocks are exactly
those below `nextBlock`. -/
theorem Reaches.blockBits {calls : List AddCall} {disk : Bytes} (h : Reaches calls disk) :
    ∀ b, b < 4096 → bit disk blockBitmap b = decide (b < nextBlock calls) := by
  induction h with
  | format => exact mkfssoFormat_blockBit
  | @call calls disk disk' c r before hrun ih =>
      intro b hb
      have hinv := before.inv
      obtain ⟨hlo, hhi⟩ := nextBlock_bounds calls
      by_cases hm : calls.length < 511
      · obtain ⟨heffect, _⟩ := hinv.call_effect hm hrun
        have hchosen := chosenBlocks_next hinv.layout hlo hhi ih
          (show calls.length + 1 < 512 by omega) c.size
        rw [heffect.blockBits b hb, ih b hb, hchosen, nextBlock, if_pos hm, ← Bool.decide_or]
        congr 1
        rw [List.mem_range'_1]
        exact propext ⟨fun hor => by omega, fun hlt => by omega⟩
      · obtain ⟨_, ⟨_, rfl⟩ | ⟨hlt, _⟩⟩ := hinv.run_late (by omega) hrun
        · rw [ih b hb, nextBlock, if_neg hm]
        · omega

/-! ## The counter beside the bitmap -/

/-- The first three calls are linked. -/
theorem linkedCalls_early {c : AddCall} {calls : List AddCall} (h : calls.length < 3) :
    linkedCalls (c :: calls) = c :: calls ∧ linkedCalls calls = calls := by
  constructor
  · rw [linkedCalls, List.length_cons, Nat.sub_eq_zero_of_le (by omega), List.drop_zero]
  · rw [linkedCalls, Nat.sub_eq_zero_of_le (by omega), List.drop_zero]

/-- Later calls are not linked. -/
theorem linkedCalls_late {c : AddCall} {calls : List AddCall} (h : 3 ≤ calls.length) :
    linkedCalls (c :: calls) = linkedCalls calls := by
  have hdrop : (c :: calls).length - 3 = calls.length - 3 + 1 := by
    rw [List.length_cons]
    omega
  rw [linkedCalls, hdrop, List.drop_succ_cons, linkedCalls]

/-- A failing call leaves the free counters alone. -/
theorem Inv.late_counter {m : Nat} {disk disk' : Bytes} {c : AddCall} {r : Int} (h : Inv m disk)
    (hm : 3 ≤ m) (hrun : c.run disk = some (r, disk')) :
    sbFreeBlocks disk' = sbFreeBlocks disk := by
  obtain ⟨_, ⟨_, rfl⟩ | ⟨hm511, bs, hbs, hlen, rfl | ⟨_, rfl⟩⟩⟩ := h.run_late hm hrun
  · rfl
  · apply word32_congr
    intro x _ _
    exact markedDisk_of_out _ (by omega) (fun b _ => by omega)
  · have haddr := inodeAddr_eq (m + 1)
    apply word32_congr
    intro x _ _
    have hdata : ∀ b ∈ bs, x < 1024 * b ∨ 1024 * b + 1024 ≤ x := by
      intro b hb
      have := (hbs.range b hb).1
      omega
    exact filledDisk_of_out _ _ hlen hbs.range (by omega) (by omega) hdata (by omega)

/-- A successful call lowers the counter by the blocks it took. -/
theorem Inv.early_counter {m : Nat} {disk disk' : Bytes} {c : AddCall} {r : Int} (h : Inv m disk)
    (hm : m < 3) (hrun : c.run disk = some (r, disk')) :
    (sbFreeBlocks disk').toNat + blocksNeeded c.size = (sbFreeBlocks disk).toNat ∧
      blocksNeeded c.size ≤ 12 := by
  obtain ⟨bs, hbs, hlen, hneeded, _, rfl⟩ := h.run_early hm hrun
  have hfilled : Effect disk (m + 1) bs (filledDisk disk (m + 1) bs c.data c.size) :=
    filledDisk_effect c.data c.size (by omega) hlen hbs.range
  have hroot := (hfilled.layout h.layout (by omega) hbs.range).rootBase_eq
  have haddr := inodeAddr_eq (m + 1)
  obtain ⟨_, hcounter⟩ := linkEntry_counters (filledDisk disk (m + 1) bs c.data c.size) (m + 1) m
    bs.length c.name (by omega)
  have hkept : sbFreeBlocks (filledDisk disk (m + 1) bs c.data c.size) = sbFreeBlocks disk := by
    apply word32_congr
    intro x _ _
    have hdata : ∀ b ∈ bs, x < 1024 * b ∨ 1024 * b + 1024 ≤ x := by
      intro b hb
      have := (hbs.range b hb).1
      omega
    exact filledDisk_of_out _ _ hlen hbs.range (by omega) (by omega) hdata (by omega)
  have hroom := h.room
  have hold := h.blockCounter
  have hfound : (UInt32.ofNat bs.length).toNat = bs.length := ofNat_toNat_of_lt (by omega)
  have hge : UInt32.ofNat bs.length ≤ sbFreeBlocks disk :=
    UInt32.le_iff_toNat_le.mpr (by omega)
  rw [hcounter, hkept, UInt32.toNat_sub_of_le _ _ hge, hfound, ← hneeded]
  omega

/-- The counter knows the blocks of the linked calls only. -/
theorem Reaches.blockCounter {calls : List AddCall} {disk : Bytes} (h : Reaches calls disk) :
    (sbFreeBlocks disk).toNat + nextBlock (linkedCalls calls) = 4097 ∧
      nextBlock (linkedCalls calls) ≤ 12 + 12 * min 3 calls.length := by
  induction h with
  | format => decide
  | @call calls disk disk' c r before hrun ih =>
      by_cases hm : calls.length < 3
      · obtain ⟨hlinked, hsame⟩ := linkedCalls_early (c := c) hm
        obtain ⟨hcounter, hneeded⟩ := before.inv.early_counter hm hrun
        rw [hsame] at ih
        rw [hlinked, nextBlock, if_pos (by omega), List.length_cons]
        omega
      · rw [linkedCalls_late (by omega), before.inv.late_counter (by omega) hrun, List.length_cons]
        omega

/-! ## One call -/

/-- Apart from the superblock and the directory a call leaves what `filledDisk` says. -/
theorem Inv.call_fills {m : Nat} {disk disk' : Bytes} {c : AddCall} {r : Int} (h : Inv m disk)
    (hm : m < 511) {bs : List Nat}
    (hbs : bs = chosenBlocks (setBit disk inodeBitmap (m + 1)) c.size)
    (hexact : bs.length = blocksNeeded c.size) (hrun : c.run disk = some (r, disk')) {x : Nat}
    (hlo : 28 ≤ x) (hdir : x < 11264 ∨ 12288 ≤ x) :
    disk' x = filledDisk disk (m + 1) bs c.data c.size x := by
  obtain ⟨hnone, _, _⟩ | ⟨n, bs', hn, hchosen, hlen, hexit⟩ := fssoAddFile_cases hrun
  · rw [h.freeInode_eq hm] at hnone
    cases hnone
  · rw [h.freeInode_eq hm] at hn
    cases hn
    have hsame : bs' = bs := hchosen.trans hbs.symm
    subst hsame
    have hrange : Chosen disk bs' := by
      rw [hchosen]
      exact chosenBlocks_chosen h.layout (by omega) c.size
    have hfilled : Effect disk (m + 1) bs' (filledDisk disk (m + 1) bs' c.data c.size) :=
      filledDisk_effect c.data c.size (by omega) hlen hrange.range
    have hlayout := hfilled.layout h.layout (by omega) hrange.range
    have hroot := hlayout.rootBase_eq
    obtain ⟨hshort, _, _⟩ | ⟨_, _, _, rfl⟩ | ⟨slot, _, hslot, _, rfl⟩ := hexit
    · omega
    · rfl
    · rw [freeSlot_filled hlayout] at hslot
      obtain ⟨_, hlt, _, _⟩ := findSlot_eq_some hslot
      have haddr := entryAddr_eq 11264 slot
      exact linkEntry_of_out _ c.name (by omega) (by rw [hroot]; omega)

/-- A record written over zeros. -/
theorem inodeAt_writeInode {disk : Bytes} {n : Nat} (size : UInt32) {bs : List Nat}
    (hlen : bs.length ≤ 12)
    (hzero : ∀ x, inodeAddr n ≤ x → x < inodeAddr n + 76 → disk x = 0) :
    inodeAt (writeInode disk n size bs) (inodeAddr n) =
      { size := size, created := 0, modified := 0, type := fssoTypeFile,
        reserved := Vector.ofFn fun _ => 0,
        direct := Vector.ofFn fun j => if h : j.val < bs.length then UInt32.ofNat bs[j.val] else 0,
        indirect := 0, doubleIndirect := 0, tripleIndirect := 0 } := by
  have hmap : (bs.map UInt32.ofNat).length = bs.length := List.length_map _
  have hword : ∀ a, inodeAddr n ≤ a → a + 4 ≤ inodeAddr n + 76 → word32 disk a = 0 := by
    intro a hlo hhi
    have hsame : SameOn disk (fun _ => 0) a 4 := fun x _ _ => hzero x (by omega) (by omega)
    rw [word32_congr hsame]
    rfl
  have hbehind : ∀ a, inodeAddr n + 64 ≤ a → a + 4 ≤ inodeAddr n + 76 →
      word32 (writeInode disk n size bs) a = 0 := by
    intro a hlo hhi
    rw [← hword a (by omega) (by omega)]
    simp only [writeInode]
    rw [word32_putWords_of_out _ (by omega), word32_putWord32_of_out _ _ (by omega),
      word32_putWord32_of_out _ _ (by omega), word32_put_of_out _ _ (by omega),
      word32_putWord32_of_out _ _ (by omega)]
  have hcreated : word32 (writeInode disk n size bs) (inodeAddr n + 4) = 0 := by
    simp only [writeInode]
    rw [word32_putWords_of_out _ (by omega), word32_putWord32_of_out _ _ (by omega),
      word32_putWord32]
  have hmodified : word32 (writeInode disk n size bs) (inodeAddr n + 8) = 0 := by
    simp only [writeInode]
    rw [word32_putWords_of_out _ (by omega), word32_putWord32]
  have hreserved : ∀ i, i < 3 → writeInode disk n size bs (inodeAddr n + 13 + i) = 0 := by
    intro i hi
    simp only [writeInode]
    rw [putWords_of_out _ (by omega), putWord32_of_out _ _ (by omega),
      putWord32_of_out _ _ (by omega), put_ne _ _ (by omega), putWord32_of_out _ _ (by omega)]
    exact hzero _ (by omega) (by omega)
  have hdirect : ∀ j, j < 12 → word32 (writeInode disk n size bs) (inodeAddr n + 16 + 4 * j) =
      if h : j < bs.length then UInt32.ofNat bs[j] else 0 := by
    intro j hj
    have hpointer := pointer_writeInode disk n size bs j
    rw [pointer, pointer, hword _ (by omega) (by omega)] at hpointer
    exact hpointer
  simp only [inodeAt, FssoInode.mk.injEq]
  refine ⟨writeInode_size _ _ _ _, hcreated, hmodified, writeInode_type _ _ _ _, ?_, ?_,
    hbehind _ (by omega) (by omega), hbehind _ (by omega) (by omega),
    hbehind _ (by omega) (by omega)⟩
  · exact congrArg Vector.ofFn (funext fun i => hreserved i i.isLt)
  · exact congrArg Vector.ofFn (funext fun j => hdirect j j.isLt)

/-- Behind the end of the data the last block keeps its bytes. -/
theorem filledDisk_tail {disk : Bytes} {n : Nat} {bs : List Nat} {size : UInt32} (data : Bytes)
    (hn : n ≤ 106) (hlen : bs.length ≤ 12) (hneeded : bs.length = blocksNeeded size)
    (hbs : Chosen disk bs) {x : Nat} (hx : size.toNat ≤ x) (hk : x / 1024 < bs.length) :
    filledDisk disk n bs data size (1024 * bs[x / 1024] + x % 1024) =
      disk (1024 * bs[x / 1024] + x % 1024) := by
  have haddr := inodeAddr_eq n
  have hwrap : size.toNat + 1023 < 4294967296 := by
    apply Classical.byContradiction
    intro hge
    have hzero := blocksNeeded_of_wrap (show 4294967296 ≤ size.toNat + 1023 by omega)
    omega
  rw [blocksNeeded_eq hwrap] at hneeded
  obtain ⟨hlo, hhi⟩ := hbs.range _ (List.getElem_mem hk)
  have hunwritten : ∀ k, (hkb : k < bs.length) → bs[k] < 4194304 ∧
      (1024 * bs[x / 1024] + x % 1024 < 1024 * bs[k] ∨
        1024 * bs[k] + (chunkSize size (0 + k)).toNat ≤ 1024 * bs[x / 1024] + x % 1024) := by
    intro k hkb
    obtain ⟨_, hhi'⟩ := hbs.range _ (List.getElem_mem hkb)
    have hchunk := chunkSize_eq (show 1024 * (0 + k) < size.toNat by omega)
    by_cases heq : k = x / 1024
    · subst heq
      exact ⟨by omega, by omega⟩
    · have hne : bs[k] ≠ bs[x / 1024] := fun hsame =>
        heq ((List.Nodup.getElem_inj_iff hbs.nodup).mp hsame)
      exact ⟨by omega, by omega⟩
  have hbits : ∀ b ∈ bs, 1024 * bs[x / 1024] + x % 1024 ≠ 2048 + b / 8 := by
    intro b hb
    have := (hbs.range b hb).2
    omega
  rw [filledDisk, writeInode_of_out _ _ hlen (by omega), writeData_of_unwritten _ _ _ _ hunwritten,
    markedDisk_of_out _ (by omega) hbits]

/-! ## Runs -/

/-- No block is given back. -/
theorem nextBlock_mono {earlier calls : List AddCall} (h : earlier <:+ calls) :
    nextBlock earlier ≤ nextBlock calls := by
  induction calls with
  | nil =>
      rw [List.suffix_nil.mp h]
  | cons c calls ih =>
      obtain rfl | hsuffix := List.suffix_cons_iff.mp h
      · exact Nat.le_refl _
      · have hle := ih hsuffix
        have hbounds := nextBlock_bounds calls
        rw [nextBlock]
        split <;> omega

/-- The blocks of the next call follow those of the calls before it. -/
theorem Reaches.next_call {calls : List AddCall} {disk disk' : Bytes} {c : AddCall} {r : Int}
    (h : Reaches calls disk) (hlen : calls.length < 106)
    (hnext : nextBlock calls ≤ 12 + 12 * calls.length) (hrun : c.run disk = some (r, disk')) :
    chosenBlocks (setBit disk inodeBitmap (calls.length + 1)) c.size =
        List.range' (nextBlock calls) (blocksNeeded c.size) ∧
      blocksNeeded c.size ≤ 12 ∧
      nextBlock (c :: calls) = nextBlock calls + blocksNeeded c.size := by
  have hinv := h.inv
  obtain ⟨hlo, hhi⟩ := nextBlock_bounds calls
  obtain ⟨_, hcount⟩ := hinv.call_effect (by omega) hrun
  have hchosen := chosenBlocks_next hinv.layout hlo hhi h.blockBits
    (show calls.length + 1 < 512 by omega) c.size
  rw [hchosen, List.length_range'] at hcount
  have hneeded : blocksNeeded c.size ≤ 12 := by omega
  refine ⟨?_, hneeded, ?_⟩
  · rw [hchosen, Nat.min_eq_left (by omega)]
  · rw [nextBlock, if_pos (by omega), Nat.min_eq_right (by omega)]

section NextCall

variable {calls : List AddCall} {disk disk' : Bytes} {c : AddCall} {r : Int}

/-- The blocks of the next call are free. -/
theorem Reaches.next_chosen (h : Reaches calls disk) (hlen : calls.length < 106)
    (hnext : nextBlock calls ≤ 12 + 12 * calls.length) (hrun : c.run disk = some (r, disk')) :
    Chosen disk (List.range' (nextBlock calls) (blocksNeeded c.size)) := by
  obtain ⟨hchosen, _⟩ := h.next_call hlen hnext hrun
  rw [← hchosen]
  exact chosenBlocks_chosen h.inv.layout (by omega) c.size

/-- Outside the directory the next call leaves the filled disk. -/
theorem Reaches.next_fills (h : Reaches calls disk) (hlen : calls.length < 106)
    (hnext : nextBlock calls ≤ 12 + 12 * calls.length) (hrun : c.run disk = some (r, disk'))
    {x : Nat} (hx : 28 ≤ x) (hdir : x < 11264 ∨ 12288 ≤ x) :
    disk' x = filledDisk disk (calls.length + 1)
      (List.range' (nextBlock calls) (blocksNeeded c.size)) c.data c.size x := by
  obtain ⟨hchosen, _⟩ := h.next_call hlen hnext hrun
  exact h.inv.call_fills (by omega) hchosen.symm List.length_range' hrun hx hdir

/-- Everything of the earlier calls lies before the new blocks and apart from the new
record. -/
theorem Reaches.next_kept (h : Reaches calls disk) (hlen : calls.length < 106)
    (hnext : nextBlock calls ≤ 12 + 12 * calls.length) (hrun : c.run disk = some (r, disk'))
    {x : Nat} (hx : 28 ≤ x) (hmap : x < 1024 ∨ 2560 ≤ x) (hdir : x < 11264 ∨ 12288 ≤ x)
    (hdata : x < 1024 * nextBlock calls ∨ 1024 * nextBlock (c :: calls) ≤ x)
    (hrecord : x < inodeAddr (calls.length + 1) ∨ inodeAddr (calls.length + 1) + 76 ≤ x) :
    disk' x = disk x := by
  obtain ⟨hchosen, _, hcons⟩ := h.next_call hlen hnext hrun
  obtain ⟨heffect, _⟩ := h.inv.call_effect (by omega) hrun
  rw [hchosen] at heffect
  refine heffect.kept x (by omega) hmap hdir ?_ hrecord
  intro b hb
  obtain ⟨hblo, hbhi⟩ := List.mem_range'_1.mp hb
  omega

/-- The record of the next call. -/
theorem Reaches.next_record (h : Reaches calls disk) (hlen : calls.length < 106)
    (hnext : nextBlock calls ≤ 12 + 12 * calls.length) (hrun : c.run disk = some (r, disk')) :
    inodeAt disk' (inodeAddr (calls.length + 1)) = fileRecord (nextBlock calls) c := by
  have haddr := inodeAddr_eq (calls.length + 1)
  have hbs := h.next_chosen hlen hnext hrun
  obtain ⟨_, hneeded, _⟩ := h.next_call hlen hnext hrun
  have hcount : (List.range' (nextBlock calls) (blocksNeeded c.size)).length =
      blocksNeeded c.size := List.length_range'
  -- the record's place is blank until the call writes it
  have hzero : ∀ x, inodeAddr (calls.length + 1) ≤ x → x < inodeAddr (calls.length + 1) + 76 →
      writeData c.size c.data 0 (List.range' (nextBlock calls) (blocksNeeded c.size))
        (markedDisk disk (calls.length + 1)
          (List.range' (nextBlock calls) (blocksNeeded c.size))) x = 0 := by
    intro x hxlo hxhi
    have hdata : ∀ b ∈ List.range' (nextBlock calls) (blocksNeeded c.size),
        b < 4194304 ∧ (x < 1024 * b ∨ 1024 * b + 1024 ≤ x) := by
      intro b hb
      have := hbs.range b hb
      omega
    have hbits : ∀ b ∈ List.range' (nextBlock calls) (blocksNeeded c.size),
        x ≠ 2048 + b / 8 := by
      intro b hb
      have := (hbs.range b hb).2
      omega
    rw [writeData_of_out _ _ hdata, markedDisk_of_out _ (by omega) hbits]
    exact (h.tidy (by omega)).fresh x hxlo (by omega)
  have hrecord : inodeAt disk' (inodeAddr (calls.length + 1)) =
      inodeAt (filledDisk disk (calls.length + 1)
        (List.range' (nextBlock calls) (blocksNeeded c.size)) c.data c.size)
        (inodeAddr (calls.length + 1)) :=
    inodeAt_ext fun i hi => h.next_fills hlen hnext hrun (by omega) (by omega)
  rw [hrecord, filledDisk, inodeAt_writeInode c.size (by omega) hzero, fileRecord]
  simp

/-- The data of the next call, and the blank rest of its last block. -/
theorem Reaches.next_data (h : Reaches calls disk) (hlen : calls.length < 106)
    (hnext : nextBlock calls ≤ 12 + 12 * calls.length) (hrun : c.run disk = some (r, disk'))
    (hblank : ∀ x, 1024 * nextBlock calls ≤ x → x < 4194304 → disk x = 0) {x : Nat}
    (hx : x < 1024 * blocksNeeded c.size) :
    disk' (1024 * nextBlock calls + x) = if x < c.size.toNat then c.data x else 0 := by
  have hbs := h.next_chosen hlen hnext hrun
  obtain ⟨_, hneeded, _⟩ := h.next_call hlen hnext hrun
  have hlo := (nextBlock_bounds calls).1
  have hcount : (List.range' (nextBlock calls) (blocksNeeded c.size)).length =
      blocksNeeded c.size := List.length_range'
  have hk : x / 1024 < (List.range' (nextBlock calls) (blocksNeeded c.size)).length := by
    rw [hcount]
    omega
  have hblock : (List.range' (nextBlock calls) (blocksNeeded c.size))[x / 1024] =
      nextBlock calls + x / 1024 := by
    rw [List.getElem_range', Nat.one_mul]
  have hplace : 1024 * nextBlock calls + x =
      1024 * (List.range' (nextBlock calls) (blocksNeeded c.size))[x / 1024] + x % 1024 := by
    rw [hblock]
    omega
  rw [h.next_fills hlen hnext hrun (by omega) (by omega)]
  by_cases hin : x < c.size.toNat
  · have hsize : c.size.toNat ≤ 12 * 1024 := by
      apply Classical.byContradiction
      intro hgt
      by_cases hwrap : c.size.toNat + 1023 < 4294967296
      · rw [blocksNeeded_eq hwrap] at hneeded
        omega
      · rw [blocksNeeded_of_wrap (by omega)] at hx
        omega
    have hdata : filledDisk disk (calls.length + 1) _ c.data c.size _ = c.data x :=
      filledDisk_data c.data (by omega) hsize hcount hbs hin
    rw [if_pos hin, hplace, List.getElem_eq_getD (h := hk) 0]
    exact hdata
  · rw [if_neg hin, hplace,
      filledDisk_tail c.data (by omega) (by omega) hcount hbs (by omega) hk, ← hplace]
    exact hblank _ (by omega) (by omega)

/-- **Step lemma.** -/
theorem Contiguous.step (h : Contiguous calls disk) (before : Reaches calls disk)
    (hlen : calls.length < 106) (hnext : nextBlock calls ≤ 12 + 12 * calls.length)
    (hrun : c.run disk = some (r, disk')) : Contiguous (c :: calls) disk' := by
  have haddr := inodeAddr_eq (calls.length + 1)
  obtain ⟨_, hneeded, hcons⟩ := before.next_call hlen hnext hrun
  have hlo := (nextBlock_bounds calls).1
  refine ⟨?_, ?_, ?_, ?_⟩
  · intro c' earlier hsuffix
    obtain heq | hsuffix := List.suffix_cons_iff.mp hsuffix
    · cases heq
      exact ⟨hneeded, hcons⟩
    · exact h.fits c' earlier hsuffix
  · intro c' earlier hsuffix
    obtain heq | hsuffix := List.suffix_cons_iff.mp hsuffix
    · cases heq
      exact before.next_record hlen hnext hrun
    · have hle := hsuffix.length_le
      rw [List.length_cons] at hle
      have haddr' := inodeAddr_eq (earlier.length + 1)
      rw [← h.records c' earlier hsuffix]
      exact inodeAt_ext fun i hi => before.next_kept hlen hnext hrun
        (by omega) (by omega) (by omega) (by omega) (by omega)
  · intro c' earlier hsuffix x hx
    obtain heq | hsuffix := List.suffix_cons_iff.mp hsuffix
    · cases heq
      exact before.next_data hlen hnext hrun h.blank hx
    · have hend := (h.fits c' earlier hsuffix).2
      have hle := nextBlock_mono hsuffix
      have hlo' := (nextBlock_bounds earlier).1
      rw [← h.data c' earlier hsuffix x hx]
      exact before.next_kept hlen hnext hrun
        (by omega) (by omega) (by omega) (by omega) (by omega)
  · intro x hx hxhi
    rw [before.next_kept hlen hnext hrun
      (by omega) (by omega) (by omega) (by omega) (by omega)]
    exact h.blank x (by omega) hxhi

end NextCall

/-- **Run lemma.** -/
theorem Reaches.contiguous_next {calls : List AddCall} {disk : Bytes} (h : Reaches calls disk)
    (hlen : calls.length ≤ 106) :
    Contiguous calls disk ∧ nextBlock calls ≤ 12 + 12 * calls.length := by
  induction h with
  | format =>
      refine ⟨⟨?_, ?_, ?_, ?_⟩, Nat.le_refl 12⟩
      · intro c earlier hsuffix
        cases List.suffix_nil.mp hsuffix
      · intro c earlier hsuffix
        cases List.suffix_nil.mp hsuffix
      · intro c earlier hsuffix
        cases List.suffix_nil.mp hsuffix
      · intro x hx _
        rw [nextBlock] at hx
        exact mkfssoFormat_zero (by omega) (by omega) (by omega) (by omega) (by omega)
  | @call calls disk disk' c r before hrun ih =>
      rw [List.length_cons] at hlen ⊢
      obtain ⟨hcontiguous, hnext⟩ := ih (by omega)
      obtain ⟨_, hneeded, hcons⟩ := before.next_call (by omega) hnext hrun
      exact ⟨hcontiguous.step before (by omega) hnext hrun, by omega⟩

/-- **Contiguous placement** after every run of at most 106 calls. -/
theorem Reaches.contiguous {calls : List AddCall} {disk : Bytes} (h : Reaches calls disk)
    (hlen : calls.length ≤ 106) : Contiguous calls disk := (h.contiguous_next hlen).1

/-! ## Owners of blocks -/

/-- The block pointers of a call. -/
theorem Contiguous.pointer_eq {calls earlier : List AddCall} {disk : Bytes} {c : AddCall}
    (h : Contiguous calls disk) (hsuffix : c :: earlier <:+ calls) {j : Nat} (hj : j < 12) :
    pointer disk (earlier.length + 1) j =
      if j < blocksNeeded c.size then UInt32.ofNat (nextBlock earlier + j) else 0 := by
  have hdirect := congrArg (fun r => r.direct.toList.getD j 0) (h.records c earlier hsuffix)
  simpa [inodeAt, fileRecord, hj, pointer] using hdirect

/-- Every taken block belongs to a call. -/
theorem exists_owner {calls : List AddCall} {b : Nat} (hlo : 12 ≤ b) (hb : b < nextBlock calls) :
    ∃ c earlier, c :: earlier <:+ calls ∧ nextBlock earlier ≤ b ∧
      b < nextBlock earlier + blocksNeeded c.size := by
  induction calls with
  | nil =>
      rw [nextBlock] at hb
      omega
  | cons c calls ih =>
      by_cases hold : b < nextBlock calls
      · obtain ⟨c', earlier, hsuffix, hfirst, hlast⟩ := ih hold
        exact ⟨c', earlier, hsuffix.trans (List.suffix_cons c calls), hfirst, hlast⟩
      · have hnew : nextBlock (c :: calls) ≤ nextBlock calls + blocksNeeded c.size := by
          rw [nextBlock]
          split <;> omega
        exact ⟨c, calls, List.suffix_rfl, by omega, by omega⟩

/-- Inode `i` belongs to call number `i`. -/
theorem exists_call {calls : List AddCall} {i : Nat} (hpos : 1 ≤ i) (hi : i ≤ calls.length) :
    ∃ c earlier, c :: earlier <:+ calls ∧ earlier.length + 1 = i := by
  have hlen : (calls.drop (calls.length - i)).length = i := by
    rw [List.length_drop]
    omega
  cases hdrop : calls.drop (calls.length - i) with
  | nil =>
      rw [hdrop, List.length_nil] at hlen
      omega
  | cons c earlier =>
      rw [hdrop, List.length_cons] at hlen
      exact ⟨c, earlier, hdrop ▸ List.drop_suffix _ _, hlen⟩

section Owners

variable {calls : List AddCall} {disk : Bytes}

/-- The pointer of an early call to a given block. -/
theorem Contiguous.owns (h : Contiguous calls disk) {c : AddCall} {earlier : List AddCall}
    (hsuffix : c :: earlier <:+ calls) {j b : Nat} (hj : j < 12) (hb : 12 ≤ b ∧ b < 4096) :
    pointer disk (earlier.length + 1) j = UInt32.ofNat b ↔
      j < blocksNeeded c.size ∧ b = nextBlock earlier + j := by
  obtain ⟨_, hend⟩ := h.fits c earlier hsuffix
  have hbound := (nextBlock_bounds (c :: earlier)).2
  rw [h.pointer_eq hsuffix hj]
  constructor
  · intro heq
    split at heq
    · rename_i hin
      have hnat := congrArg UInt32.toNat heq
      rw [ofNat_toNat_of_lt (by omega), ofNat_toNat_of_lt hb.2] at hnat
      exact ⟨hin, hnat.symm⟩
    · exact absurd heq.symm (ofNat_ne_zero (by omega) (by omega))
  · intro hboth
    rw [if_pos hboth.1, hboth.2]

/-- The linked calls are the first calls. -/
theorem linkedCalls_suffix (calls : List AddCall) : linkedCalls calls <:+ calls :=
  List.drop_suffix _ _

/-- At most three calls are linked. -/
theorem length_linkedCalls (calls : List AddCall) :
    (linkedCalls calls).length = min 3 calls.length := by
  rw [linkedCalls, List.length_drop]
  omega

/-- The calls with a root entry are the first ones. -/
theorem suffix_linkedCalls {c : AddCall} {earlier : List AddCall} (h : c :: earlier <:+ calls)
    (hlen : earlier.length < 3) : c :: earlier <:+ linkedCalls calls := by
  have hle := h.length_le
  refine List.suffix_of_suffix_length_le h (linkedCalls_suffix calls) ?_
  rw [length_linkedCalls]
  rw [List.length_cons] at hle ⊢
  omega

/-- A marked block has exactly one owner. -/
theorem Contiguous.marked_iff (h : Contiguous calls disk) (hreach : Reaches calls disk)
    (hlen : calls.length ≤ 106) {b : Nat} (hlo : 12 ≤ b) (hhi : b < 4096) :
    bit disk blockBitmap b = true ↔ ∃! p : Nat × Nat, (1 ≤ p.1 ∧ p.1 ≤ calls.length) ∧ p.2 < 12 ∧
      pointer disk p.1 p.2 = UInt32.ofNat b := by
  have htidy := hreach.tidy hlen
  rw [hreach.blockBits b hhi, decide_eq_true_iff]
  constructor
  · intro hb
    obtain ⟨c, earlier, hsuffix, hfirst, hlast⟩ := exists_owner hlo hb
    have hle := hsuffix.length_le
    rw [List.length_cons] at hle
    have hneeded := (h.fits c earlier hsuffix).1
    have hj : b - nextBlock earlier < 12 := by omega
    have howns : pointer disk (earlier.length + 1) (b - nextBlock earlier) = UInt32.ofNat b :=
      (h.owns hsuffix hj ⟨hlo, hhi⟩).mpr ⟨by omega, by omega⟩
    refine ⟨(earlier.length + 1, b - nextBlock earlier), ⟨⟨by simp, hle⟩, hj, howns⟩, ?_⟩
    intro p hp
    obtain ⟨⟨_, hple⟩, hpj, hpowns⟩ := hp
    have hne : pointer disk p.1 p.2 ≠ 0 := by
      rw [hpowns]
      exact ofNat_ne_zero (by omega) (by omega)
    obtain ⟨hinode, hslot⟩ :=
      htidy.distinct p.1 (earlier.length + 1) hple hle p.2 _ hpj hj hne (hpowns.trans howns.symm)
    exact Prod.ext hinode hslot
  · intro howner
    obtain ⟨p, ⟨⟨hpos, hple⟩, hpj, hpowns⟩, _⟩ := howner
    obtain ⟨c, earlier, hsuffix, hnumber⟩ := exists_call hpos hple
    rw [← hnumber] at hpowns
    obtain ⟨hin, heq⟩ := (h.owns hsuffix hpj ⟨hlo, hhi⟩).mp hpowns
    have hend := (h.fits c earlier hsuffix).2
    have hmono := nextBlock_mono hsuffix
    omega

/-- A block can be reached from the root directory exactly if a linked call took
it. -/
theorem Contiguous.reachable_iff (h : Contiguous calls disk) (hreach : Reaches calls disk)
    (hlen : calls.length ≤ 106) {b : Nat} (hlo : 12 ≤ b) (hhi : b < 4096) :
    (∃ e ∈ dirEntries disk 0, ∃ j, j < 12 ∧ pointer disk e.inode.toNat j = UInt32.ofNat b) ↔
      b < nextBlock (linkedCalls calls) := by
  rw [(hreach.lists hlen).dirEntries_eq hreach.inv.layout]
  constructor
  · intro hfound
    obtain ⟨e, he, j, hj, howns⟩ := hfound
    obtain ⟨k, hk, _, hinode, _⟩ := rootEntries_inode he
    rw [length_rootEntries] at hk
    rw [hinode, ofNat_toNat_of_lt (by omega)] at howns
    obtain ⟨c, earlier, hsuffix, hnumber⟩ :=
      exists_call (show 1 ≤ k + 1 by omega) (show k + 1 ≤ calls.length by omega)
    rw [← hnumber] at howns
    obtain ⟨hin, heq⟩ := (h.owns hsuffix hj ⟨hlo, hhi⟩).mp howns
    have hend := (h.fits c earlier hsuffix).2
    have hmono := nextBlock_mono (suffix_linkedCalls hsuffix (by omega))
    omega
  · intro hb
    obtain ⟨c, earlier, hsuffix, hfirst, hlast⟩ := exists_owner hlo hb
    have hle := hsuffix.length_le
    rw [length_linkedCalls, List.length_cons] at hle
    have hsuffix' := hsuffix.trans (linkedCalls_suffix calls)
    have hneeded := (h.fits c earlier hsuffix').1
    have hk : earlier.length < (rootEntries calls).length := by
      rw [length_rootEntries]
      omega
    have hk' : earlier.length < calls.reverse.length := by
      rw [List.length_reverse]
      omega
    refine ⟨(rootEntries calls)[earlier.length], List.getElem_mem hk, b - nextBlock earlier,
      by omega, ?_⟩
    rw [getElem_rootEntries calls hk hk']
    change pointer disk (UInt32.ofNat (earlier.length + 1)).toNat _ = _
    rw [ofNat_toNat_of_lt (by omega)]
    exact (h.owns hsuffix' (by omega) ⟨hlo, hhi⟩).mpr ⟨by omega, by omega⟩

end Owners

/-! ## Results -/

/-- **Bump allocation and its counter.**  After any run the marked blocks are those
below `nextBlock`, and the superblock's counter has followed the linked calls only. -/
theorem image_allocation {calls : List AddCall} {disk : Bytes} (h : Reaches calls disk) :
    (∀ b, b < 4096 → (bit disk blockBitmap b = true ↔ b < nextBlock calls)) ∧
      (sbFreeBlocks disk).toNat = 4097 - nextBlock (linkedCalls calls) := by
  refine ⟨fun b hb => ?_, ?_⟩
  · rw [h.blockBits b hb, decide_eq_true_iff]
  · have hcounter := h.blockCounter
    omega

theorem image_allocation_hello :
    (∀ b, b < 4096 → (bit helloDisk blockBitmap b = true ↔ b < nextBlock [helloCall])) ∧
      (sbFreeBlocks helloDisk).toNat = 4097 - nextBlock (linkedCalls [helloCall]) :=
  image_allocation (Reaches.call Reaches.format helloCall_run)

/-- **The image in terms of the calls.** -/
theorem image_of_calls {calls : List AddCall} {disk : Bytes} (h : Reaches calls disk)
    (hlen : calls.length ≤ 106) :
    Contiguous calls disk ∧ dirEntries disk 0 = rootEntries calls ∧
      (∀ i, i < 512 → (bit disk inodeBitmap i = true ↔ i ≤ calls.length)) ∧
      inodeAt disk (inodeAddr 0) = inodeAt mkfssoFormat (inodeAddr 0) ∧
      ∀ x, inodeAddr (calls.length + 1) ≤ x → x < 11264 → disk x = 0 := by
  refine ⟨h.contiguous hlen, (h.lists hlen).dirEntries_eq h.inv.layout, fun i hi => ?_, ?_,
    fun x hlo hhi => ?_⟩
  · rw [h.inv.inodeBits i hi, decide_eq_true_iff]
  · exact inodeAt_ext fun i hi => h.inv.layout.root (3072 + i) (by omega) (by omega)
  · exact (h.tidy hlen).fresh x hlo hhi

theorem image_of_calls_hello :
    Contiguous [helloCall] helloDisk ∧ dirEntries helloDisk 0 = rootEntries [helloCall] ∧
      (∀ i, i < 512 → (bit helloDisk inodeBitmap i = true ↔ i ≤ 1)) ∧
      inodeAt helloDisk (inodeAddr 0) = inodeAt mkfssoFormat (inodeAddr 0) ∧
      ∀ x, inodeAddr (1 + 1) ≤ x → x < 11264 → helloDisk x = 0 :=
  image_of_calls (Reaches.call Reaches.format helloCall_run) (by decide)

/-- **Owned and lost blocks.**  Every marked data block has exactly one owner, but
the blocks of the calls without a root entry cannot be reached any more. -/
theorem blocks_owned {calls : List AddCall} {disk : Bytes} (h : Reaches calls disk)
    (hlen : calls.length ≤ 106) {b : Nat} (hlo : 12 ≤ b) (hhi : b < 4096) :
    (bit disk blockBitmap b = true ↔ ∃! p : Nat × Nat, (1 ≤ p.1 ∧ p.1 ≤ calls.length) ∧
      p.2 < 12 ∧ pointer disk p.1 p.2 = UInt32.ofNat b) ∧
    ((∃ e ∈ dirEntries disk 0, ∃ j, j < 12 ∧ pointer disk e.inode.toNat j = UInt32.ofNat b) ↔
      b < nextBlock (linkedCalls calls)) :=
  ⟨(h.contiguous hlen).marked_iff h hlen hlo hhi, (h.contiguous hlen).reachable_iff h hlen hlo hhi⟩

theorem blocks_owned_hello :
    (bit helloDisk blockBitmap 12 = true ↔ ∃! p : Nat × Nat, (1 ≤ p.1 ∧ p.1 ≤ 1) ∧
      p.2 < 12 ∧ pointer helloDisk p.1 p.2 = UInt32.ofNat 12) ∧
    ((∃ e ∈ dirEntries helloDisk 0, ∃ j, j < 12 ∧
      pointer helloDisk e.inode.toNat j = UInt32.ofNat 12) ↔
      12 < nextBlock (linkedCalls [helloCall])) :=
  blocks_owned (Reaches.call Reaches.format helloCall_run) (by decide) (by decide) (by decide)

end Fsso
