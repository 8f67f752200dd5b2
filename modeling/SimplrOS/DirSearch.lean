import SimplrOS.Lookup
import SimplrOS.ReadFault

/-!
# Searching a directory on any disk

The entries of a directory are those of its leading nonzero direct pointers, block
after block and slot after slot, as far as their inode field is not zero.  A name
is what the 256 bytes of the name field hold before the first NUL, so that an entry
without a NUL has a name of 256 characters.  `fsso_find_in_dir` looks the name up in
this list, whatever the disk holds.

The comparison has no bound of its own.  It stops at the end of the name it looks
for, and so does not leave the field as long as that name has at most 255
characters.
-/

namespace Fsso

open ByteStore

/-- The entry at slot `j` of the block at `base`, if it is in use; its name is read up to
its NUL, for at most `k` characters. -/
def slotEntry (k : Nat) (s : Bytes) (base j : Nat) : Option RootEntry :=
  if word32 s (entryAddr base j) = 0 then none
  else some ⟨word32 s (entryAddr base j), charsAt s (entryAddr base j + 4) k⟩

/-- The entries in use of the block at `base`. -/
def blockEntries (k : Nat) (s : Bytes) (base : Nat) : List RootEntry :=
  (List.range entriesPerBlock).filterMap (slotEntry k s base)

/-- The entries in use of directory `n`, in the order of the scan. -/
def dirEntries (disk : Bytes) (n : UInt32) : List RootEntry :=
  (leadBlocks (inodePtrs disk n)).flatMap fun b =>
    blockEntries (fssoMaxFilename + 1) disk (1024 * b.toNat)

/-- A block buffer filled from block `b`; behind it lies what lay there before. -/
def filledFrom (disk behind : Bytes) (b : UInt32) : Bytes :=
  fun i => if i < 1024 then disk (1024 * b.toNat + i) else behind i

/-- The entries in use of directory `n` as seen by a comparison that goes on behind the
name field: their names are read for at most `k` characters. -/
def runOnEntries (disk behind : Bytes) (k : Nat) (n : UInt32) : List RootEntry :=
  (leadBlocks (inodePtrs disk n)).flatMap fun b => blockEntries k (filledFrom disk behind b) 0

/-! ## What is read -/

/-- The indices at which the comparison loop reads `entries[j].name`, from index `k`
at address `pos` on. -/
def nameReads (buffer : Bytes) (pos k : Nat) : List UInt8 → List Nat
  | [] => [k]
  | c :: rest =>
      if buffer pos = 0 ∧ c = 0 then [k]
      else if buffer pos ≠ c then [k]
      else k :: nameReads buffer (pos + 1) (k + 1) rest

/-- The indices read in the entries' names by the slot loop. -/
def findEntryReads (buffer : Bytes) (name : List UInt8) : Nat → Nat → List Nat
  | _, 0 => []
  | j, fuel+1 =>
      if word32 buffer (entryAddr 0 j) = 0 then findEntryReads buffer name (j + 1) fuel
      else if nameMatches buffer (entryAddr 0 j + 4) name then
        nameReads buffer (entryAddr 0 j + 4) 0 name
      else nameReads buffer (entryAddr 0 j + 4) 0 name ++ findEntryReads buffer name (j + 1) fuel

/-- The indices read in the entries' names by the block loop. -/
def scanDirReads (dv : Drive) (name : List UInt8) : List UInt32 → Nat → Bytes → List Nat
  | [], _, _ => []
  | b :: rest, t, buffer =>
      if b = 0 then []
      else
        let buffer := readBlock dv t b buffer
        match findEntry buffer name 0 entriesPerBlock with
        | some _ => findEntryReads buffer name 0 entriesPerBlock
        | none =>
            findEntryReads buffer name 0 entriesPerBlock ++ scanDirReads dv name rest (t + 1) buffer

/-- The indices read in the entries' names by one call of `fsso_find_in_dir`. -/
def fssoFindInDirReads (dv : Drive) (t : Nat) (fs : FssoFilesystem) (dirInode : UInt32)
    (name : List UInt8) : List Nat :=
  let inode := fssoReadInode dv t fs dirInode dv.staleInode
  if inode.ret ≠ 0 then []
  else if inode.out.type ≠ fssoTypeDir then []
  else scanDirReads dv name inode.out.direct.toList inode.clock (dv.stack inode.clock)

/-- The comparison depends on the bytes it reads and on no others. -/
theorem nameMatches_of_reads {s t : Bytes} {a b k : Nat} {name : List UInt8}
    (h : ∀ i ∈ nameReads s (a + k) k name, s (a + i) = t (b + i)) :
    nameMatches s (a + k) name = nameMatches t (b + k) name := by
  induction name generalizing k with
  | nil =>
      have hhere := h k (by simp [nameReads])
      rw [nameMatches, nameMatches, hhere]
  | cons c rest ih =>
      have hhere : s (a + k) = t (b + k) := by
        apply h
        unfold nameReads
        split
        · exact List.mem_singleton_self k
        · split
          · exact List.mem_singleton_self k
          · exact List.mem_cons_self
      rw [nameMatches, nameMatches, ← hhere]
      by_cases hend : s (a + k) = 0 ∧ c = 0
      · rw [if_pos hend, if_pos hend]
      · by_cases hne : s (a + k) ≠ c
        · rw [if_neg hend, if_neg hend, if_pos hne, if_pos hne]
        · rw [if_neg hend, if_neg hend, if_neg hne, if_neg hne]
          apply ih (k := k + 1)
          intro i hi
          apply h
          rw [nameReads, if_neg hend, if_neg hne]
          exact List.mem_cons_of_mem k hi

/-- No index is behind the end of the name looked for. -/
theorem le_of_mem_nameReads {buffer : Bytes} {pos k : Nat} {name : List UInt8} :
    ∀ i ∈ nameReads buffer pos k name, i ≤ k + name.length := by
  induction name generalizing pos k with
  | nil =>
      intro i hi
      rw [nameReads, List.mem_singleton] at hi
      omega
  | cons c rest ih =>
      intro i hi
      rw [List.length_cons]
      unfold nameReads at hi
      split at hi
      · rw [List.mem_singleton] at hi
        omega
      · split at hi
        · rw [List.mem_singleton] at hi
          omega
        · rcases List.mem_cons.mp hi with hhere | hlater
          · omega
          · have := ih i hlater
            omega

theorem le_of_mem_findEntryReads {buffer : Bytes} {name : List UInt8} {j fuel : Nat} :
    ∀ i ∈ findEntryReads buffer name j fuel, i ≤ name.length := by
  induction fuel generalizing j with
  | zero => exact fun i hi => absurd hi List.not_mem_nil
  | succ fuel ih =>
      intro i hi
      have hname : i ∈ nameReads buffer (entryAddr 0 j + 4) 0 name → i ≤ name.length := by
        intro hmem
        have := le_of_mem_nameReads i hmem
        omega
      unfold findEntryReads at hi
      split at hi
      · exact ih i hi
      · split at hi
        · exact hname hi
        · rcases List.mem_append.mp hi with hhere | hlater
          · exact hname hhere
          · exact ih i hlater

theorem le_of_mem_scanDirReads {dv : Drive} {name : List UInt8} {ptrs : List UInt32} {t : Nat}
    {buffer : Bytes} : ∀ i ∈ scanDirReads dv name ptrs t buffer, i ≤ name.length := by
  induction ptrs generalizing t buffer with
  | nil => exact fun i hi => absurd hi List.not_mem_nil
  | cons b rest ih =>
      intro i hi
      unfold scanDirReads at hi
      split at hi
      · exact absurd hi List.not_mem_nil
      · dsimp only at hi
        split at hi
        · exact le_of_mem_findEntryReads i hi
        · rcases List.mem_append.mp hi with hhere | hlater
          · exact le_of_mem_findEntryReads i hhere
          · exact ih i hlater

/-- Whatever the drive delivers, no name is read behind the length of the name
looked for. -/
theorem le_of_mem_fssoFindInDirReads {dv : Drive} {t : Nat} {fs : FssoFilesystem} {n : UInt32}
    {name : List UInt8} : ∀ i ∈ fssoFindInDirReads dv t fs n name, i ≤ name.length := by
  intro i hi
  unfold fssoFindInDirReads at hi
  dsimp only at hi
  split at hi
  · exact absurd hi List.not_mem_nil
  · split at hi
    · exact absurd hi List.not_mem_nil
    · exact le_of_mem_scanDirReads i hi

/-! ## The search -/

/-- **Name comparison on any bytes.**  A name shorter than the field matches exactly
if it is what the field holds up to its NUL. -/
theorem nameMatches_iff_charsAt {buffer : Bytes} {pos k : Nat} {name : List UInt8}
    (hname : ∀ c ∈ name, c ≠ 0) (hk : name.length < k) :
    nameMatches buffer pos name = true ↔ charsAt buffer pos k = name := by
  induction name generalizing pos k with
  | nil =>
      obtain ⟨k, rfl⟩ : ∃ k', k = k' + 1 := ⟨k - 1, by simp at hk; omega⟩
      by_cases hnul : buffer pos = 0 <;> simp [nameMatches, charsAt, hnul]
  | cons c rest ih =>
      rw [List.length_cons] at hk
      obtain ⟨k, rfl⟩ : ∃ k', k = k' + 1 := ⟨k - 1, by omega⟩
      have hc := hname c List.mem_cons_self
      rw [nameMatches, if_neg (fun hboth => hc hboth.2), charsAt]
      by_cases hsame : buffer pos = c
      · have hrest : nameMatches buffer (pos + 1) rest = true ↔
            charsAt buffer (pos + 1) k = rest :=
          ih (fun d hd => hname d (List.mem_cons_of_mem c hd)) (by omega)
        rw [if_neg (not_not_intro hsame), if_neg (hsame ▸ hc), hsame, hrest]
        simp
      · rw [if_pos hsame]
        by_cases hnul : buffer pos = 0
        · simp [hnul]
        · simp [hnul, hsame]

/-- The slot loop finds the first entry of that name in its slots. -/
theorem findEntry_eq_lookup {name : List UInt8} (hname : ∀ c ∈ name, c ≠ 0) {k : Nat}
    (hk : name.length < k) (buffer : Bytes) (j fuel : Nat) :
    findEntry buffer name j fuel =
      lookup ((List.range' j fuel).filterMap (slotEntry k buffer 0)) name := by
  induction fuel generalizing j with
  | zero => rfl
  | succ fuel ih =>
      rw [findEntry, List.range'_succ]
      by_cases hfree : word32 buffer (entryAddr 0 j) = 0
      · have hslot : slotEntry k buffer 0 j = none := by rw [slotEntry, if_pos hfree]
        rw [if_pos hfree, List.filterMap_cons_none hslot, ih]
      · have hslot : slotEntry k buffer 0 j = some ⟨word32 buffer (entryAddr 0 j),
            charsAt buffer (entryAddr 0 j + 4) k⟩ := by rw [slotEntry, if_neg hfree]
        have hmatch : nameMatches buffer (entryAddr 0 j + 4) name = true ↔
            charsAt buffer (entryAddr 0 j + 4) k = name := nameMatches_iff_charsAt hname hk
        rw [if_neg hfree, List.filterMap_cons_some hslot, lookup_cons, cName_of_nulFree hname, ih]
        by_cases hsame : charsAt buffer (entryAddr 0 j + 4) k = name
        · rw [if_pos (hmatch.mpr hsame), if_pos hsame]
        · rw [if_neg (fun hyes => hsame (hmatch.mp hyes)), if_neg hsame]

theorem readBlock_sound {dv : Drive} (hsound : dv.Sound) (t : Nat) (b : UInt32)
    (buffer : Bytes) : readBlock dv t b buffer = filledFrom dv.disk buffer b := by
  funext i
  rw [readBlock_apply, filledFrom]
  simp [hsound t]

/-- A further block leaves what lies behind the buffer. -/
theorem filledFrom_filledFrom (disk behind : Bytes) (b b' : UInt32) :
    filledFrom disk (filledFrom disk behind b) b' = filledFrom disk behind b' := by
  funext i
  by_cases hi : i < 1024 <;> simp [filledFrom, hi]

/-- **Block loop.**  On a sound drive it finds the first entry of that name in the
leading blocks. -/
theorem scanDir_eq_lookup {name : List UInt8} (hname : ∀ c ∈ name, c ≠ 0) {k : Nat}
    (hk : name.length < k) {dv : Drive} (hsound : dv.Sound) (ptrs : List UInt32) (t : Nat)
    (buffer : Bytes) :
    (scanDir dv name ptrs t buffer).1 =
      lookup ((leadBlocks ptrs).flatMap fun b =>
        blockEntries k (filledFrom dv.disk buffer b) 0) name := by
  induction ptrs generalizing t buffer with
  | nil => rfl
  | cons b rest ih =>
      unfold scanDir
      by_cases hb : b = 0
      · rw [if_pos hb]
        simp [leadBlocks, hb, lookup]
      · have hlead : leadBlocks (b :: rest) = b :: leadBlocks rest := by simp [leadBlocks, hb]
        have hblock := findEntry_eq_lookup hname hk (filledFrom dv.disk buffer b) 0
          entriesPerBlock
        have hrest := ih (t + 1) (filledFrom dv.disk buffer b)
        simp only [filledFrom_filledFrom] at hrest
        rw [if_neg hb, hlead, List.flatMap_cons, lookup_append, blockEntries,
          List.range_eq_range', readBlock_sound hsound]
        dsimp only
        rw [hblock, ← hrest]
        cases lookup ((List.range' 0 entriesPerBlock).filterMap
          (slotEntry k (filledFrom dv.disk buffer b) 0)) name <;> rfl

/-- **Directory search on a sound drive.**  The reply is decided by the inode and the
entries of the directory. -/
theorem fssoFindInDir_runOn {name : List UInt8} (hname : ∀ c ∈ name, c ≠ 0) {k : Nat}
    (hk : name.length < k) {dv : Drive} (hsound : dv.Sound) (t : Nat) (fs : FssoFilesystem)
    (n : UInt32) (out : UInt32) :
    ∃ t', fssoFindInDir dv t fs n name out =
      if fs.superblock.totalInodes ≤ n then ⟨-1, out, t'⟩
      else if (inodeAt dv.disk (readerInodeAddr n)).type ≠ fssoTypeDir then ⟨-2, out, t'⟩
      else dirReply out (lookup (runOnEntries dv.disk (dv.stack (t + 1)) k n) name, t') := by
  by_cases hrange : fs.superblock.totalInodes ≤ n
  · refine ⟨t, ?_⟩
    rw [if_pos hrange]
    simp [fssoFindInDir, fssoReadInode_of_range dv t dv.staleInode hrange]
  · have hread := fssoReadInode_of_ok dv.staleInode (UInt32.not_le.mp hrange) (hsound t)
    by_cases htype : (inodeAt dv.disk (readerInodeAddr n)).type ≠ fssoTypeDir
    · refine ⟨t + 1, ?_⟩
      rw [fssoFindInDir_of_inode name out hread, if_neg hrange, if_pos htype, if_pos htype]
    · have hscan := scanDir_eq_lookup hname hk hsound (inodePtrs dv.disk n) (t + 1)
        (dv.stack (t + 1))
      refine ⟨(scanDir dv name (inodePtrs dv.disk n) (t + 1) (dv.stack (t + 1))).2, ?_⟩
      rw [fssoFindInDir_of_inode name out hread, if_neg hrange, if_neg htype, if_neg htype,
        runOnEntries, ← hscan]
      rfl

/-- The name fields lie inside the block. -/
theorem runOnEntries_eq (disk behind : Bytes) (n : UInt32) :
    runOnEntries disk behind (fssoMaxFilename + 1) n = dirEntries disk n := by
  have hblock : ∀ b : UInt32, blockEntries (fssoMaxFilename + 1) (filledFrom disk behind b) 0 =
      blockEntries (fssoMaxFilename + 1) disk (1024 * b.toNat) := by
    intro b
    apply List.filterMap_congr
    intro j hj
    have hslot : j < 3 := List.mem_range.mp hj
    have haddr := entryAddr_eq 0 j
    have haddr' := entryAddr_eq (1024 * b.toNat) j
    have hbyte : ∀ i, i < 260 → filledFrom disk behind b (entryAddr 0 j + i) =
        disk (entryAddr (1024 * b.toNat) j + i) := by
      intro i hi
      rw [filledFrom, if_pos (by omega)]
      congr 1
      omega
    have hinode : word32 (filledFrom disk behind b) (entryAddr 0 j) =
        word32 disk (entryAddr (1024 * b.toNat) j) :=
      word32_ext fun i hi => hbyte i (by omega)
    have hchars : charsAt (filledFrom disk behind b) (entryAddr 0 j + 4) (fssoMaxFilename + 1) =
        charsAt disk (entryAddr (1024 * b.toNat) j + 4) (fssoMaxFilename + 1) := by
      apply charsAt_ext
      intro i hi
      rw [fssoMaxFilename] at hi
      rw [Nat.add_assoc, Nat.add_assoc]
      exact hbyte (4 + i) (by omega)
    rw [slotEntry, slotEntry, hinode, hchars]
  rw [runOnEntries, dirEntries]
  simp only [hblock]

theorem mem_runOnEntries {disk behind : Bytes} {k : Nat} {n : UInt32} {e : RootEntry} :
    e ∈ runOnEntries disk behind k n ↔ ∃ b ∈ leadBlocks (inodePtrs disk n), ∃ j < entriesPerBlock,
      slotEntry k (filledFrom disk behind b) 0 j = some e := by
  simp [runOnEntries, blockEntries]

/-- Where every name in use ends inside its field, none runs on. -/
theorem runOnEntries_of_ends {disk : Bytes} (behind : Bytes) {n : UInt32}
    (hends : ∀ e ∈ dirEntries disk n, e.name.length ≤ 255) {k : Nat} (hk : 256 ≤ k) :
    runOnEntries disk behind k n = dirEntries disk n := by
  rw [← runOnEntries_eq disk behind n] at hends ⊢
  apply List.flatMap_congr
  intro b hb
  apply List.filterMap_congr
  intro j hj
  unfold slotEntry
  by_cases hfree : word32 (filledFrom disk behind b) (entryAddr 0 j) = 0
  · rw [if_pos hfree, if_pos hfree]
  · have hmem : _ ∈ runOnEntries disk behind (fssoMaxFilename + 1) n :=
      mem_runOnEntries.mpr ⟨b, hb, j, List.mem_range.mp hj, if_neg hfree⟩
    have hlen := hends _ hmem
    have hcut := take_charsAt (filledFrom disk behind b) (entryAddr 0 j + 4) hk
    dsimp only [fssoMaxFilename] at hlen
    rw [if_neg hfree, if_neg hfree, fssoMaxFilename, ← hcut]
    rw [← hcut, List.length_take] at hlen
    rw [List.take_of_length_le (by omega)]

/-- The search for a name that fits the field. -/
theorem fssoFindInDir_sound {name : List UInt8} (hname : ∀ c ∈ name, c ≠ 0)
    (hlen : name.length ≤ 255) {dv : Drive} (hsound : dv.Sound) (t : Nat) (fs : FssoFilesystem)
    (n : UInt32) (out : UInt32) :
    ∃ t', fssoFindInDir dv t fs n name out =
      if fs.superblock.totalInodes ≤ n then ⟨-1, out, t'⟩
      else if (inodeAt dv.disk (readerInodeAddr n)).type ≠ fssoTypeDir then ⟨-2, out, t'⟩
      else dirReply out (lookup (dirEntries dv.disk n) name, t') := by
  rw [← runOnEntries_eq dv.disk (dv.stack (t + 1)) n]
  exact fssoFindInDir_runOn hname (Nat.lt_succ_of_le hlen) hsound t fs n out

/-- The first entry named `name` has inode `m`. -/
def FirstEntry (entries : List RootEntry) (name : List UInt8) (m : UInt32) : Prop :=
  ∃ before e after, entries = before ++ e :: after ∧ (∀ x ∈ before, x.name ≠ name) ∧
    e.name = name ∧ e.inode = m

theorem lookup_eq_some_iff {entries : List RootEntry} {name : List UInt8}
    (hname : ∀ c ∈ name, c ≠ 0) {m : UInt32} :
    lookup entries name = some m ↔ FirstEntry entries name m := by
  rw [lookup, Option.map_eq_some_iff, cName_of_nulFree hname]
  constructor
  · intro h
    obtain ⟨e, hfind, hinode⟩ := h
    obtain ⟨hhit, before, after, hsplit, hbefore⟩ := List.find?_eq_some_iff_append.mp hfind
    exact ⟨before, e, after, hsplit, fun x hx => by simpa using hbefore x hx,
      by simpa using hhit, hinode⟩
  · intro h
    obtain ⟨before, e, after, hsplit, hbefore, hhit, hinode⟩ := h
    refine ⟨e, List.find?_eq_some_iff_append.mpr ⟨by simpa using hhit, before, after, hsplit, ?_⟩,
      hinode⟩
    intro x hx
    simpa using hbefore x hx

/-- What a search of directory `n` for `name` has to answer. -/
structure Searched (disk : Bytes) (fs : FssoFilesystem) (n : UInt32) (name : List UInt8)
    (out : UInt32) (r : Reply UInt32) : Prop where
  range : r.ret = -1 ↔ fs.superblock.totalInodes ≤ n
  notDir : r.ret = -2 ↔ n < fs.superblock.totalInodes ∧
    (inodeAt disk (readerInodeAddr n)).type ≠ fssoTypeDir
  found : ∀ m, (r.ret = 0 ∧ r.out = m) ↔ n < fs.superblock.totalInodes ∧
    (inodeAt disk (readerInodeAddr n)).type = fssoTypeDir ∧
    FirstEntry (dirEntries disk n) name m
  missing : r.ret = -3 ↔ n < fs.superblock.totalInodes ∧
    (inodeAt disk (readerInodeAddr n)).type = fssoTypeDir ∧
    ∀ e ∈ dirEntries disk n, e.name ≠ name
  untouched : r.ret ≠ 0 → r.out = out

/-- **Directory search on any disk.**  The first entry of that name is found, and
nothing is read behind the name field of an entry. -/
theorem fssoFindInDir_searched (dv : Drive) (hsound : dv.Sound) (t : Nat) (fs : FssoFilesystem)
    (n : UInt32) (name : List UInt8) (hname : ∀ c ∈ name, c ≠ 0) (hlen : name.length ≤ 255)
    (out : UInt32) :
    Searched dv.disk fs n name out (fssoFindInDir dv t fs n name out) ∧
    ∀ k ∈ fssoFindInDirReads dv t fs n name, k ≤ 255 := by
  have hfirst : ∀ m, FirstEntry (dirEntries dv.disk n) name m ↔
      lookup (dirEntries dv.disk n) name = some m := fun m => (lookup_eq_some_iff hname).symm
  have hnone : (∀ e ∈ dirEntries dv.disk n, e.name ≠ name) ↔
      lookup (dirEntries dv.disk n) name = none := by
    rw [lookup_eq_none, cName_of_nulFree hname]
  refine ⟨?_, fun k hk => (le_of_mem_fssoFindInDirReads k hk).trans hlen⟩
  obtain ⟨t', hreply⟩ := fssoFindInDir_sound hname hlen hsound t fs n out
  rw [hreply]
  by_cases hrange : fs.superblock.totalInodes ≤ n
  · have hnot : ¬ n < fs.superblock.totalInodes := UInt32.not_lt.mpr hrange
    rw [if_pos hrange]
    constructor <;> simp [hrange, hnot]
  · have hin := UInt32.not_le.mp hrange
    rw [if_neg hrange]
    by_cases htype : (inodeAt dv.disk (readerInodeAddr n)).type = fssoTypeDir
    · rw [if_neg (not_not_intro htype)]
      cases hlook : lookup (dirEntries dv.disk n) name with
      | none => constructor <;> simp [dirReply, hrange, hin, htype, hfirst, hnone, hlook]
      | some m => constructor <;> simp [dirReply, hrange, hin, htype, hfirst, hnone, hlook]
    · rw [if_pos htype]
      constructor <;> simp [hrange, hin, htype]

theorem fssoFindInDir_searched_hello :
    Searched helloDisk formattedFs 0 helloCall.name 0
      (fssoFindInDir helloDrive 0 formattedFs 0 helloCall.name 0) ∧
    ∀ k ∈ fssoFindInDirReads helloDrive 0 formattedFs 0 helloCall.name, k ≤ 255 :=
  fssoFindInDir_searched helloDrive (fun _ => rfl) 0 formattedFs 0 helloCall.name
    (by simp [helloCall]) (by decide) 0

end Fsso
