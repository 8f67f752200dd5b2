import SimplrOS.Isolation
import SimplrOS.ReadBack

/-!
# Writing a file and reading it back

`Stored` is what a successful `fsso_add_file` leaves on the disk: a file record
with the right size, whose direct pointers name blocks that hold the data one
chunk after another.  The reader follows the pointers and ignores the size, so
it returns whole blocks: the file comes back exactly when its size fills its
last block or the caller asks for no more than the size.
-/

namespace Fsso

open ByteStore

/-- Inode `n` is a file of `size` bytes, and the blocks `bs` hold `data`. -/
structure Stored (disk : Bytes) (n : Nat) (data : Bytes) (size : UInt32) (bs : List Nat) :
    Prop where
  type : disk (inodeAddr n + 12) = fssoTypeFile
  recorded : word32 disk (inodeAddr n) = size
  length : bs.length = (size.toNat + 1023) / 1024
  range : ∀ b ∈ bs, 12 ≤ b ∧ b < 4096
  pointers : ∀ j, j < 12 →
    pointer disk n j = if h : j < bs.length then UInt32.ofNat bs[j] else 0
  data : ∀ i, i < size.toNat → disk (1024 * bs.getD (i / 1024) 0 + i % 1024) = data i

/-- `reply` answers a read of a file of `size` bytes: that many bytes, cut to
`max_size`, and nothing else written. -/
structure ReadsBack (data : Bytes) (size maxSize : UInt32) (out : Bytes) (reply : Reply Bytes) :
    Prop where
  ret : reply.ret = (min size.toNat maxSize.toNat : Nat)
  bytes : ∀ i, reply.out i = if i < min size.toNat maxSize.toNat then data i else out i

/-! ## What the writer leaves -/

/-- The data area of the filled disk holds the data. -/
theorem filledDisk_data {disk : Bytes} {n : Nat} {bs : List Nat} {size : UInt32} (data : Bytes)
    (hn : n ≤ 106) (hsize : size.toNat ≤ 12 * 1024) (hlen : bs.length = blocksNeeded size)
    (hbs : Chosen disk bs) {i : Nat} (hi : i < size.toNat) :
    filledDisk disk n bs data size (1024 * bs.getD (i / 1024) 0 + i % 1024) = data i := by
  have haddr := inodeAddr_eq n
  rw [blocksNeeded_eq (by omega)] at hlen
  have hk : i / 1024 < bs.length := by omega
  have hblock : bs.getD (i / 1024) 0 = bs[i / 1024] := (List.getElem_eq_getD 0).symm
  have hlo := (hbs.range _ (List.getElem_mem hk)).1
  have hsmall : ∀ b ∈ bs, b < 4194304 := by
    intro b hb
    have := (hbs.range b hb).2
    omega
  have hindex : 1024 * (0 + i / 1024) + i % 1024 = i := by omega
  have hin : 1024 * (0 + i / 1024) + i % 1024 < size.toNat := by omega
  have hpart : _ = data (1024 * (0 + i / 1024) + i % 1024) :=
    writeData_apply hbs.nodup hsmall 0 (markedDisk disk n bs) hk (by omega) hin
  rw [hindex] at hpart
  rw [hblock, filledDisk, writeInode_of_out _ _ (by omega) (by omega)]
  exact hpart

/-- The new entry and the counters are apart from the records and the data. -/
theorem Inv.linkEntry_beside {m : Nat} {disk : Bytes} (h : Inv m disk) (hm : m < 3)
    {bs : List Nat} (hbs : Chosen disk bs) (hlen : bs.length ≤ 12) (c : AddCall) {x : Nat}
    (hlo : 3072 ≤ x) (hdir : x < 11264 ∨ 12288 ≤ x) :
    linkEntry (filledDisk disk (m + 1) bs c.data c.size) (m + 1) m c.name bs.length x =
      filledDisk disk (m + 1) bs c.data c.size x := by
  have haddr := inodeAddr_eq (m + 1)
  have hslot := entryAddr_eq 11264 m
  have hfilled : Effect disk (m + 1) bs (filledDisk disk (m + 1) bs c.data c.size) :=
    filledDisk_effect c.data c.size (by omega) hlen hbs.range
  have hroot := (hfilled.layout h.layout (by omega) hbs.range).rootBase_eq
  exact linkEntry_of_out _ c.name (by omega) (by rw [hroot]; omega)

/-- The inode taken by one of the first calls is a file. -/
theorem Inv.added_type {m : Nat} {disk disk' : Bytes} {c : AddCall} {r : Int} (h : Inv m disk)
    (hm : m < 3) (hrun : c.run disk = some (r, disk')) :
    disk' (inodeAddr (m + 1) + 12) = fssoTypeFile := by
  obtain ⟨bs, hbs, hlen, _, _, rfl⟩ := h.run_early hm hrun
  have haddr := inodeAddr_eq (m + 1)
  rw [h.linkEntry_beside hm hbs hlen c (by omega) (by omega)]
  exact writeInode_type _ _ _ _

/-- **What a successful call stores.** -/
theorem stored_of_add {m : Nat} {disk disk' : Bytes} {c : AddCall} (h : Inv m disk)
    (ht : Tidy m disk) (hm : m < 3) (hsize : c.size.toNat ≤ 12 * 1024)
    (hrun : c.run disk = some (0, disk')) :
    ∃ bs, Stored disk' (m + 1) c.data c.size bs := by
  have htype := h.added_type hm hrun
  obtain ⟨bs, hbs, hlen, hneeded, _, rfl⟩ := h.run_early hm hrun
  have haddr := inodeAddr_eq (m + 1)
  have hlink : ∀ x, 3072 ≤ x → x < 11264 ∨ 12288 ≤ x →
      linkEntry (filledDisk disk (m + 1) bs c.data c.size) (m + 1) m c.name bs.length x =
        filledDisk disk (m + 1) bs c.data c.size x :=
    fun x hlo hdir => h.linkEntry_beside hm hbs hlen c hlo hdir
  refine ⟨bs, htype, ?_, ?_, hbs.range, ?_, ?_⟩
  · rw [word32_congr fun x _ _ => hlink x (by omega) (by omega)]
    exact writeInode_size _ _ _ _
  · rw [hneeded, blocksNeeded_eq (by omega)]
  · intro j hj
    have hrecord : pointer (linkEntry (filledDisk disk (m + 1) bs c.data c.size) (m + 1) m
        c.name bs.length) (m + 1) j =
          pointer (filledDisk disk (m + 1) bs c.data c.size) (m + 1) j :=
      word32_congr fun x _ _ => hlink x (by omega) (by omega)
    rw [hrecord, filledDisk_pointer c.data c.size (by omega) hbs.range hj,
      ht.fresh_pointer (by omega) hj]
  · intro i hi
    have hk : i / 1024 < bs.length := by
      rw [hneeded, blocksNeeded_eq (by omega)]
      omega
    have hlo := (hbs.range _ (List.getElem_mem hk)).1
    have hblock : bs.getD (i / 1024) 0 = bs[i / 1024] := (List.getElem_eq_getD 0).symm
    rw [hlink _ (by omega) (by omega)]
    exact filledDisk_data c.data (by omega) hsize hneeded hbs hi

/-- A kept file is still stored. -/
theorem Stored.kept {disk disk' data : Bytes} {n s : Nat} {size : UInt32} {bs : List Nat}
    (h : Stored disk n data size bs) (hlen : bs.length ≤ 12) (hkept : FileKept disk disk' n s) :
    Stored disk' n data size bs where
  type := (hkept.record _ (by omega) (by simp only [inodeSize]; omega)).trans h.type
  recorded := (word32_congr fun x hlo hhi =>
    hkept.record x (by omega) (by simp only [inodeSize]; omega)).trans h.recorded
  length := h.length
  range := h.range
  pointers := by
    intro j hj
    rw [← h.pointers j hj]
    exact word32_congr fun x hlo hhi =>
      hkept.record x (by omega) (by simp only [inodeSize]; omega)
  data := by
    intro i hi
    have hlength := h.length
    have hk : i / 1024 < bs.length := by omega
    obtain ⟨hlo, hhi⟩ := h.range _ (List.getElem_mem hk)
    have hblock : bs.getD (i / 1024) 0 = bs[i / 1024] := (List.getElem_eq_getD 0).symm
    have hpointer := h.pointers (i / 1024) (by omega)
    rw [dif_pos hk] at hpointer
    have hne : pointer disk n (i / 1024) ≠ 0 := by
      rw [hpointer]
      exact ofNat_ne_zero (by omega) (by omega)
    have hsame := hkept.blocks (i / 1024) (by simp only [fssoDirectBlocks]; omega) hne
    rw [hpointer, blockAddr_ofNat (by omega)] at hsame
    rw [← h.data i hi, hblock]
    exact hsame _ (by omega) (by simp only [fssoBlockSize]; omega)

/-- Keeping a file twice. -/
theorem FileKept.trans {disk disk' disk'' : Bytes} {n s : Nat} (h : FileKept disk disk' n s)
    (h' : FileKept disk' disk'' n s) (hroot : rootBase disk' = rootBase disk) :
    FileKept disk disk'' n s where
  record := fun x hlo hhi => (h'.record x hlo hhi).trans (h.record x hlo hhi)
  blocks := by
    intro j hj hne x hlo hhi
    have hlt : j < 12 := hj
    have hpointer : pointer disk' n j = pointer disk n j :=
      word32_congr fun y hy hy' => h.record y (by omega) (by simp only [inodeSize]; omega)
    have hlater := h'.blocks j hj (by rw [hpointer]; exact hne) x
    rw [hpointer] at hlater
    exact (hlater hlo hhi).trans (h.blocks j hj hne x hlo hhi)
  entry := by
    intro x hlo hhi
    have hlater := h'.entry x
    rw [hroot] at hlater
    exact (hlater hlo hhi).trans (h.entry x hlo hhi)

/-! ## What the reader makes of it -/

/-- The leading pointers of a record that names `bs` and is zero after them. -/
theorem leadBlocks_of_prefix {ptrs bs : List UInt32} (hlen : bs.length ≤ ptrs.length)
    (hbs : ∀ b ∈ bs, b ≠ 0)
    (hptrs : ∀ j, (hj : j < ptrs.length) → ptrs[j] = if h : j < bs.length then bs[j] else 0) :
    leadBlocks ptrs = bs := by
  have hsplit : ptrs = bs ++ List.replicate (ptrs.length - bs.length) 0 := by
    apply List.ext_getElem
    · simp [hlen]
    · intro j hj _
      rw [hptrs j hj, List.getElem_append]
      split <;> simp
  have hall : ∀ b ∈ bs, decide (b ≠ 0) = true := fun b hb => decide_eq_true (hbs b hb)
  rw [hsplit, leadBlocks, List.takeWhile_append_of_pos hall, List.takeWhile_replicate]
  simp

/-- The pointers the reader follows are the blocks of the file. -/
theorem Stored.leadBlocks_eq {disk data : Bytes} {n : Nat} {size : UInt32} {bs : List Nat}
    (h : Stored disk n data size bs) (hlen : bs.length ≤ 12) :
    leadBlocks (inodeAt disk (inodeAddr n)).direct.toList = bs.map UInt32.ofNat := by
  apply leadBlocks_of_prefix
  · simpa using hlen
  · intro b hb
    obtain ⟨k, hk, rfl⟩ := List.mem_map.mp hb
    obtain ⟨hlo, hhi⟩ := h.range k hk
    exact ofNat_ne_zero (by omega) (by omega)
  · intro j hj
    have hj12 : j < 12 := by simpa using hj
    have hpointer := h.pointers j hj12
    rw [pointer] at hpointer
    simpa [inodeAt] using hpointer

/-- Inside the file the reader's bytes are the data. -/
theorem Stored.fileByte_eq {disk data : Bytes} {n : Nat} {size : UInt32} {bs : List Nat}
    (h : Stored disk n data size bs) (hlen : bs.length ≤ 12) {i : Nat} (hi : i < size.toNat) :
    fileByte disk (inodeAt disk (inodeAddr n)).direct.toList i = data i := by
  have hlength := h.length
  have hk : i / 1024 < bs.length := by omega
  have hpointer := h.pointers (i / 1024) (by omega)
  rw [dif_pos hk, pointer] at hpointer
  have hptr : (inodeAt disk (inodeAddr n)).direct.toList.getD (i / 1024) 0 =
      UInt32.ofNat bs[i / 1024] := by
    have htoList : (inodeAt disk (inodeAddr n)).direct.toList.length = 12 := by simp
    have hin : i / 1024 < (inodeAt disk (inodeAddr n)).direct.toList.length := by omega
    rw [← hpointer, ← List.getElem_eq_getD (h := hin) 0]
    simp [inodeAt]
  have hblock : bs.getD (i / 1024) 0 = bs[i / 1024] := (List.getElem_eq_getD 0).symm
  have hdata := h.data i hi
  rw [hblock] at hdata
  rw [fileByte, hptr, ofNat_toNat_of_lt (h.range _ (List.getElem_mem hk)).2]
  exact hdata

/-- **Reading a stored file.**  The count is that of whole blocks, cut to
`max_size`, whatever the recorded size. -/
theorem Stored.readsBack_iff {dv : Drive} {data : Bytes} {n size : UInt32} {bs : List Nat}
    (h : Stored dv.disk n.toNat data size bs) (hsound : dv.Sound) (hlen : bs.length ≤ 12)
    {fs : FssoFilesystem} (hn : n < fs.superblock.totalInodes) (hn13 : n.toNat < 13) (t : Nat)
    (out : Bytes) (maxSize : UInt32) :
    ReadsBack data size maxSize out (fssoReadFile dv t fs n out maxSize) ↔
      size.toNat % 1024 = 0 ∨ maxSize ≤ size := by
  have haddr : readerInodeAddr n = inodeAddr n.toNat := by
    rw [readerInodeAddr_eq, inodeAddr_eq]
    omega
  have hlength := h.length
  have hfile : (inodeAt dv.disk (readerInodeAddr n)).type = fssoTypeFile := by
    rw [haddr]
    exact h.type
  have hread := fssoReadFile_sound hsound hn (t := t) out maxSize hfile
  rw [haddr] at hread
  dsimp only at hread
  rw [h.leadBlocks_eq hlen, List.length_map] at hread
  obtain ⟨hret, hbytes⟩ := hread
  rw [UInt32.le_iff_toNat_le]
  constructor
  · intro hback
    have hcount := hret.symm.trans hback.ret
    omega
  · intro hfits
    have hcount : min (1024 * bs.length) maxSize.toNat = min size.toNat maxSize.toNat := by
      omega
    refine ⟨by rw [hret, hcount], fun i => ?_⟩
    rw [hbytes i, hcount]
    by_cases hi : i < min size.toNat maxSize.toNat
    · rw [if_pos hi, if_pos hi]
      exact h.fileByte_eq hlen (by omega)
    · rw [if_neg hi, if_neg hi]

/-! ## The round trip -/

/-- The call that writes the test file of `mkfsso`. -/
def helloCall : AddCall where
  name := [104, 101, 108, 108, 111, 46, 116, 120, 116]
  data := fun i => [72, 101, 108, 108, 111, 32, 102, 114, 111, 109, 32, 70, 83, 83, 79, 33, 10,
    0].getD i 0
  size := 18

/-- The image after that call. -/
def helloDisk : Bytes := ((helloCall.run mkfssoFormat).map Prod.snd).getD mkfssoFormat

theorem helloCall_run : helloCall.run mkfssoFormat = some (0, helloDisk) := by
  obtain ⟨disk', hrun⟩ := Reaches.format.succeeds (c := helloCall) (by decide) (by decide)
  rw [helloDisk, hrun]
  rfl

/-- A drive that delivers that image. -/
def helloDrive : Drive := ⟨zeroMemory, helloDisk, fun _ => true⟩

/-- Reading the test file back with the given `max_size`, after mounting. -/
def helloReply (maxSize : UInt32) : Reply Bytes :=
  fssoReadFile helloDrive 1 (fssoMount helloDrive 0 ⟨superblockAt (fun _ => 0) 0, 0⟩).out 1
    (fun _ => 0) maxSize

/-- **Round trip.**  After any run, a file that a further call adds is mounted
and read back byte for byte exactly when its size is a multiple of the block size
or `max_size` does not exceed its size. -/
theorem fssoReadFile_roundTrip_iff {calls : List AddCall} {disk disk' : Bytes} {c : AddCall}
    {n : Nat} (hreach : Reaches calls disk) (hsize : c.size.toNat ≤ 12 * 1024)
    (hrun : c.run disk = some (0, disk')) (hn : freeInode disk = some n) {dv : Drive}
    (hsound : dv.Sound) (hdisk : dv.disk = disk') (t t' : Nat) (fs : FssoFilesystem)
    (out : Bytes) (maxSize : UInt32) :
    ((fssoMount dv t fs).ret = 0 ∧
      ReadsBack c.data c.size maxSize out
        (fssoReadFile dv t' (fssoMount dv t fs).out (UInt32.ofNat n) out maxSize)) ↔
      (c.size.toNat % 1024 = 0 ∨ maxSize ≤ c.size) := by
  have hinv := hreach.inv
  have hshort : calls.length < 3 := (hreach.succeeds_iff hrun).mp rfl
  rw [hinv.freeInode_eq (by omega)] at hn
  cases hn
  have hlayout := (hinv.step hrun).layout
  obtain ⟨hmount, htotal⟩ := fssoMount_sound hsound t fs (by rw [hdisk]; exact hlayout.magic)
  obtain ⟨bs, hstored⟩ := stored_of_add hinv (hreach.tidy (by omega)) hshort hsize hrun
  have hlength := hstored.length
  have hnat : (UInt32.ofNat (calls.length + 1)).toNat = calls.length + 1 :=
    ofNat_toNat_of_lt (by omega)
  have hinode : UInt32.ofNat (calls.length + 1) <
      (fssoMount dv t fs).out.superblock.totalInodes := by
    have htotal' : word32 dv.disk 16 = 512 := by
      rw [hdisk]
      exact hlayout.totalInodes
    rw [htotal, htotal', UInt32.lt_iff_toNat_lt, hnat]
    simp only [UInt32.reduceToNat]
    omega
  rw [← hdisk, ← hnat] at hstored
  rw [← hstored.readsBack_iff hsound (by omega) hinode (by omega) t' out maxSize]
  exact ⟨fun hboth => hboth.2, fun hback => ⟨hmount, hback⟩⟩

/-- Asked for 18 bytes, the reader gives the file. -/
theorem helloReply_eighteen :
    (fssoMount helloDrive 0 ⟨superblockAt (fun _ => 0) 0, 0⟩).ret = 0 ∧
      ReadsBack helloCall.data 18 18 (fun _ => 0) (helloReply 18) := by
  have hsound : helloDrive.Sound := fun _ => rfl
  exact (fssoReadFile_roundTrip_iff Reaches.format (by decide) helloCall_run (by decide) hsound
    rfl 0 1 ⟨superblockAt (fun _ => 0) 0, 0⟩ (fun _ => 0) 18).mpr (Or.inr (by decide))

/-- The test asks for 1024 bytes of its 18-byte file and gets 1024. -/
theorem helloReply_not_readsBack :
    helloCall.run mkfssoFormat = some (0, helloDisk) ∧
      ¬ ReadsBack helloCall.data 18 1024 (fun _ => 0) (helloReply 1024) := by
  refine ⟨helloCall_run, fun hback => ?_⟩
  have hstored := stored_of_add Inv.of_format Tidy.of_format (by decide) (by decide) helloCall_run
  obtain ⟨bs, hbs⟩ := hstored
  have hmagic : word64 helloDrive.disk 0 = fssoMagic :=
    (Inv.of_format.step helloCall_run).layout.magic
  have htotal : word32 helloDrive.disk 16 = 512 :=
    (Inv.of_format.step helloCall_run).layout.totalInodes
  have hsound : helloDrive.Sound := fun _ => rfl
  have hmount := (fssoMount_sound hsound 0 ⟨superblockAt (fun _ => 0) 0, 0⟩ hmagic).2
  have hlength : bs.length = 1 := hbs.length
  have hiff : ReadsBack helloCall.data 18 1024 (fun _ => 0) (helloReply 1024) ↔ _ :=
    hbs.readsBack_iff hsound (by omega) (by rw [hmount, htotal]; decide) (by decide) 1
      (fun _ => 0) 1024
  rcases hiff.mp hback with hmod | hle
  · exact absurd hmod (by decide)
  · exact absurd hle (by decide)

end Fsso
