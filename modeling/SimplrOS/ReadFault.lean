import SimplrOS.InodeTable
import SimplrOS.ReadBack

/-!
# Failed reads and uninitialised buffers

`read_block` drops the result of `ahci_read`, so the readers go on after a failed
read with whatever the block buffer holds: stack garbage, the previous block, or what
the controller had stored when the command failed.  `Unspoiled` says that an
operation is immune to all of this for a given disk and pattern of failures, and each
operation gets the exact patterns for which it is.
-/

namespace Fsso

open ByteStore

/-- The same disk and the same failures, with other garbage in memory. -/
def Drive.withGarbage (dv : Drive) (g : Garbage) : Drive := { dv with toGarbage := g }

/-- Whatever the calls find in memory, the operation succeeds only if all its reads
did, and its result does not depend on it. -/
structure Unspoiled {α : Type} (dv : Drive) (t : Nat) (succeeds : Int → Prop)
    (op : Drive → Reply α) : Prop where
  reads : ∀ g, succeeds (op (dv.withGarbage g)).ret →
    ∀ k, t ≤ k → k < (op (dv.withGarbage g)).clock → dv.fate k = true
  ret : ∀ g g', (op (dv.withGarbage g)).ret = (op (dv.withGarbage g')).ret
  out : ∀ g g', (op (dv.withGarbage g)).out = (op (dv.withGarbage g')).out

/-- Memory that holds `s` in every fresh buffer and after every failed read. -/
def Garbage.filled (s : Bytes) : Garbage := { zeroMemory with
  residue := fun _ _ => s, stack := fun _ => s }

theorem readBlock_filled {dv : Drive} {t : Nat} (s : Bytes) (b : UInt32) (buffer : Bytes)
    (hfate : dv.fate t = false) :
    SameOn (readBlock (dv.withGarbage (.filled s)) t b buffer) s 0 1024 :=
  fun _ _ hi => readBlock_of_failed b buffer hfate (by omega)

/-- A successful inode read does not depend on the garbage. -/
theorem fssoReadInode_withGarbage {dv : Drive} {t : Nat} {fs : FssoFilesystem} {n : UInt32}
    (out : FssoInode) (g : Garbage) (hn : n < fs.superblock.totalInodes)
    (hfate : dv.fate t = true) : fssoReadInode (dv.withGarbage g) t fs n out =
      ⟨0, inodeAt dv.disk (readerInodeAddr n), t + 1⟩ :=
  fssoReadInode_of_ok out hn hfate

/-- An operation with one and the same reply for all garbage. -/
theorem Unspoiled.of_const {α : Type} {dv : Drive} {t : Nat} {succeeds : Int → Prop}
    {op : Drive → Reply α} {reply : Reply α} (hop : ∀ g, op (dv.withGarbage g) = reply)
    (hreads : succeeds reply.ret → ∀ k, t ≤ k → k < reply.clock → dv.fate k = true) :
    Unspoiled dv t succeeds op where
  reads := by
    intro g
    rw [hop g]
    exact hreads
  ret := fun g g' => by rw [hop g, hop g']
  out := fun g g' => by rw [hop g, hop g']

/-- The content of block `b`. -/
def blockAt (disk : Bytes) (b : UInt32) : Bytes := fun i => disk (1024 * b.toNat + i)

/-- The direct pointers of inode `n` where the reader looks for them. -/
def inodePtrs (disk : Bytes) (n : UInt32) : List UInt32 :=
  (inodeAt disk (readerInodeAddr n)).direct.toList

/-! ## Mounting and reading an inode -/

theorem superblockAt_congr {s s' : Bytes} {a : Nat} (h : SameOn s s' a 92) :
    superblockAt s a = superblockAt s' a := by
  have hword : ∀ i, i + 4 ≤ 92 → word32 s (a + i) = word32 s' (a + i) :=
    fun i hi => word32_congr fun x _ _ => h x (by omega) (by omega)
  have hreserved : ∀ i, i < 12 → word32 s (a + 44 + 4 * i) = word32 s' (a + 44 + 4 * i) :=
    fun i hi => word32_congr fun x _ _ => h x (by omega) (by omega)
  simp only [superblockAt, FssoSuperblock.mk.injEq]
  refine ⟨word64_congr fun x _ _ => h x (by omega) (by omega), hword 8 (by decide),
    hword 12 (by decide), hword 16 (by decide), hword 20 (by decide), hword 24 (by decide),
    hword 28 (by decide), ?_, hword 40 (by decide), ?_⟩
  · exact congrArg Vector.ofFn (funext fun i => h _ (by omega) (by omega))
  · exact congrArg Vector.ofFn (funext fun i => hreserved i i.isLt)

/-- A mount whose read succeeds depends on the disk only. -/
theorem fssoMount_of_ok {dv : Drive} {t : Nat} (fs : FssoFilesystem) (hfate : dv.fate t = true) :
    fssoMount dv t fs =
      if (superblockAt dv.disk 0).magic ≠ fssoMagic then ⟨-1, fs, t + 1⟩
      else ⟨0, { superblock := superblockAt dv.disk 0, diskStartBlock := 0 }, t + 1⟩ := by
  have hread : superblockAt (readBlock dv t 0 (dv.stack t)) 0 = superblockAt dv.disk 0 := by
    apply superblockAt_congr
    intro x _ hx
    rw [readBlock_of_ok 0 _ hfate (by omega)]
    simp
  rw [fssoMount, hread]

/-- **Mount.**  Its one read has to succeed. -/
theorem fssoMount_unspoiled_iff (dv : Drive) (t : Nat) (fs : FssoFilesystem) :
    Unspoiled dv t (· = 0) (fun dv => fssoMount dv t fs) ↔ dv.fate t = true := by
  constructor
  · intro h
    -- The buffer may hold an old superblock.
    cases hfate : dv.fate t with
    | true => rfl
    | false =>
        have hmagic : (superblockAt mkfssoFormat 0).magic = fssoMagic := by decide
        have hstale : superblockAt (readBlock (dv.withGarbage (.filled mkfssoFormat)) t 0
            mkfssoFormat) 0 = superblockAt mkfssoFormat 0 :=
          superblockAt_congr fun x hlo hhi =>
            readBlock_filled mkfssoFormat 0 mkfssoFormat hfate x hlo (by omega)
        have hmount : fssoMount (dv.withGarbage (.filled mkfssoFormat)) t fs =
            ⟨0, { superblock := superblockAt mkfssoFormat 0, diskStartBlock := 0 }, t + 1⟩ := by
          have hstack : (dv.withGarbage (.filled mkfssoFormat)).stack t = mkfssoFormat := rfl
          simp only [fssoMount, hstack, hstale, hmagic, ne_eq, not_true_eq_false, if_false]
        have hok := h.reads (.filled mkfssoFormat)
        rw [hmount] at hok
        rw [← hfate]
        exact hok rfl t (Nat.le_refl t) (Nat.lt_succ_self t)
  · intro hfate
    have hmount : ∀ g, fssoMount (dv.withGarbage g) t fs =
        if (superblockAt dv.disk 0).magic ≠ fssoMagic then ⟨-1, fs, t + 1⟩
        else ⟨0, { superblock := superblockAt dv.disk 0, diskStartBlock := 0 }, t + 1⟩ :=
      fun g => fssoMount_of_ok fs hfate
    refine Unspoiled.of_const hmount ?_
    intro _ k hlo hhi
    have hk : k < t + 1 := by
      split at hhi
      · exact hhi
      · exact hhi
    obtain rfl : k = t := by omega
    exact hfate

/-- Out of range, the inode is refused before any read. -/
theorem fssoReadInode_of_range (dv : Drive) (t : Nat) {fs : FssoFilesystem} {n : UInt32}
    (out : FssoInode) (hn : fs.superblock.totalInodes ≤ n) :
    fssoReadInode dv t fs n out = ⟨-1, out, t⟩ := by
  rw [fssoReadInode, if_pos hn]

/-- In range, the call performs one read and reports success, whatever became
of it. -/
theorem fssoReadInode_in_range (dv : Drive) (t : Nat) {fs : FssoFilesystem} {n : UInt32}
    (out : FssoInode) (hn : n < fs.superblock.totalInodes) :
    (fssoReadInode dv t fs n out).ret = 0 ∧ (fssoReadInode dv t fs n out).clock = t + 1 := by
  have hguard : ¬ n ≥ fs.superblock.totalInodes := UInt32.not_le.mpr hn
  rw [fssoReadInode, if_neg hguard]
  exact ⟨rfl, rfl⟩

/-- After a failed read the inode comes from the buffer. -/
theorem fssoReadInode_of_failed {dv : Drive} {t : Nat} {fs : FssoFilesystem} {n : UInt32}
    (s : Bytes) (out : FssoInode) (hn : n < fs.superblock.totalInodes)
    (hfate : dv.fate t = false) :
    fssoReadInode (dv.withGarbage (.filled s)) t fs n out =
      ⟨0, inodeAt s (inodeSize * (n % (1024 / 76)).toNat), t + 1⟩ := by
  have hguard : ¬ n ≥ fs.superblock.totalInodes := UInt32.not_le.mpr hn
  have hslot : inodeSize * (n % (1024 / 76)).toNat + 76 ≤ 1024 := by
    have hoffset : (n % (1024 / 76)).toNat = n.toNat % 13 := rfl
    rw [hoffset, inodeSize]
    omega
  have hinode : inodeAt (readBlock (dv.withGarbage (.filled s)) t (3 + n / (1024 / 76))
      ((dv.withGarbage (.filled s)).stack t)) (inodeSize * (n % (1024 / 76)).toNat) =
        inodeAt s (inodeSize * (n % (1024 / 76)).toNat) := by
    apply inodeAt_ext
    intro i hi
    exact readBlock_filled s _ _ hfate _ (Nat.zero_le _) (by omega)
  rw [fssoReadInode, if_neg hguard]
  simp only [hinode]

/-- **Inode read.**  Its one read has to succeed unless the number is refused. -/
theorem fssoReadInode_unspoiled_iff (dv : Drive) (t : Nat) (fs : FssoFilesystem) (n : UInt32)
    (out : FssoInode) :
    Unspoiled dv t (· = 0) (fun dv => fssoReadInode dv t fs n out) ↔
      fs.superblock.totalInodes ≤ n ∨ dv.fate t = true := by
  by_cases hn : n < fs.superblock.totalInodes
  · have hrange : ¬ fs.superblock.totalInodes ≤ n := UInt32.not_le.mpr hn
    constructor
    · intro h
      obtain ⟨hret, hclock⟩ := fssoReadInode_in_range (dv.withGarbage dv.toGarbage) t out hn
      exact Or.inr (h.reads dv.toGarbage hret t (Nat.le_refl t) (by omega))
    · intro hor
      have hfate : dv.fate t = true := hor.resolve_left hrange
      refine Unspoiled.of_const (fun g => fssoReadInode_withGarbage out g hn hfate) ?_
      intro _ k hlo hhi
      have hk : k < t + 1 := hhi
      obtain rfl : k = t := by omega
      exact hfate
  · have hrange : fs.superblock.totalInodes ≤ n := UInt32.not_lt.mp hn
    refine ⟨fun _ => Or.inl hrange, fun _ => ?_⟩
    refine Unspoiled.of_const (fun g => fssoReadInode_of_range _ t out hrange) ?_
    intro _ k hlo hhi
    have hk : k < t := hhi
    omega

/-! ## Reading a file -/

/-- How many data blocks `fsso_read_file` reads: up to the first zero pointer or
until `max_size` bytes are there. -/
def dataReads (ptrs : List UInt32) (maxSize : UInt32) : Nat :=
  min (leadBlocks ptrs).length ((maxSize.toNat + 1023) / 1024)

/-- The number of reads does not depend on their outcome. -/
theorem copyBlocks_clock (dv : Drive) (maxSize : UInt32) (ptrs : List UInt32) (q t : Nat)
    (buffer out : Bytes) (bytesRead : UInt32) (hroom : q + ptrs.length ≤ 12)
    (hcount : bytesRead.toNat = min (1024 * q) maxSize.toNat) :
    (copyBlocks dv maxSize ptrs t buffer bytesRead out).2.2 =
      t + min (leadBlocks ptrs).length ((maxSize.toNat + 1023) / 1024 - q) := by
  induction ptrs generalizing q t buffer bytesRead out with
  | nil => simp [copyBlocks, leadBlocks]
  | cons b rest ih =>
      rw [List.length_cons] at hroom
      unfold copyBlocks
      by_cases hb : b = 0
      · simp [hb, leadBlocks]
      · have hlead := length_leadBlocks_cons hb rest
        by_cases hmore : bytesRead ≥ maxSize
        · have hle := UInt32.le_iff_toNat_le.mp hmore
          rw [if_neg hb, if_pos hmore]
          dsimp only
          omega
        · obtain ⟨hstart, _, _, hnext⟩ := nextCount (by omega) hcount hmore
          rw [if_neg hb, if_neg hmore]
          dsimp only
          rw [ih (q + 1) (t + 1) _ _ _ (by omega) hnext, hlead]
          have hlt := UInt32.lt_iff_toNat_lt.mp (UInt32.not_le.mp hmore)
          omega

/-- With every read succeeding, the garbage is immaterial. -/
theorem copyBlocks_congr {dv : Drive} (g g' : Garbage) {maxSize : UInt32} {ptrs : List UInt32}
    {q t : Nat} (buffer buffer' : Bytes) {out : Bytes} {bytesRead : UInt32}
    (hroom : q + ptrs.length ≤ 12) (hcount : bytesRead.toNat = min (1024 * q) maxSize.toNat)
    (hfate : ∀ j, j < min (leadBlocks ptrs).length ((maxSize.toNat + 1023) / 1024 - q) →
      dv.fate (t + j) = true) :
    copyBlocks (dv.withGarbage g) maxSize ptrs t buffer bytesRead out =
      copyBlocks (dv.withGarbage g') maxSize ptrs t buffer' bytesRead out := by
  induction ptrs generalizing q t buffer buffer' bytesRead out with
  | nil => rfl
  | cons b rest ih =>
      rw [List.length_cons] at hroom
      unfold copyBlocks
      by_cases hb : b = 0
      · rw [if_pos hb, if_pos hb]
      · by_cases hmore : bytesRead ≥ maxSize
        · rw [if_neg hb, if_pos hmore, if_neg hb, if_pos hmore]
        · have hlead := length_leadBlocks_cons hb rest
          have hlt := UInt32.lt_iff_toNat_lt.mp (UInt32.not_le.mp hmore)
          obtain ⟨hstart, hchunk, _, hnext⟩ := nextCount (by omega) hcount hmore
          have hnow : dv.fate t = true := hfate 0 (by omega)
          rw [if_neg hb, if_neg hmore, if_neg hb, if_neg hmore]
          dsimp only
          generalize (if bytesRead + 1024 > maxSize then maxSize - bytesRead else 1024) = toCopy
            at hchunk hnext ⊢
          have hcopy : copyBytes out bytesRead.toNat
              (readBlock (dv.withGarbage g) t b buffer) toCopy.toNat =
                copyBytes out bytesRead.toNat
                  (readBlock (dv.withGarbage g') t b buffer') toCopy.toNat := by
            funext x
            rw [copyBytes_apply, copyBytes_apply]
            split
            · have hin : x - bytesRead.toNat < 1024 := by omega
              have hread : ∀ g buffer, readBlock (dv.withGarbage g) t b buffer
                  (x - bytesRead.toNat) = dv.disk (1024 * b.toNat + (x - bytesRead.toNat)) :=
                fun g buffer => readBlock_of_ok b buffer hnow hin
              exact (hread g buffer).trans (hread g' buffer').symm
            · rfl
          rw [hcopy]
          apply ih _ _ (q := q + 1) (by omega) hnext
          intro j hj
          have hlater := hfate (j + 1) (by omega)
          rwa [Nat.add_right_comm t 1 j]

/-- Bytes that read as an inode of the given type without blocks. -/
def typedBytes (n : UInt32) (type : UInt8) : Bytes :=
  put (fun _ => 0) (inodeSize * (n % (1024 / 76)).toNat + 12) type

theorem typedBytes_type (n : UInt32) (type : UInt8) :
    (inodeAt (typedBytes n type) (inodeSize * (n % (1024 / 76)).toNat)).type = type := by
  simp only [inodeAt, typedBytes, put_same]

/-- The file read once the inode is there. -/
theorem fssoReadFile_of_inode {dv : Drive} {t : Nat} {fs : FssoFilesystem} {n : UInt32}
    {inode : FssoInode} (out : Bytes) (maxSize : UInt32)
    (hread : fssoReadInode dv t fs n dv.staleInode = ⟨0, inode, t + 1⟩) :
    fssoReadFile dv t fs n out maxSize =
      if inode.type ≠ fssoTypeFile then ⟨-2, out, t + 1⟩
      else
        let r := copyBlocks dv maxSize inode.direct.toList (t + 1) (dv.stack (t + 1)) 0 out
        ⟨r.1.toNat, r.2.1, r.2.2⟩ := by
  simp only [fssoReadFile, hread, ne_eq, not_true_eq_false, if_false]

section ReadFile

variable {dv : Drive} {t : Nat} {fs : FssoFilesystem} {n : UInt32}

/-- With the inode read, a file's reply is that of the block loop. -/
theorem fssoReadFile_of_file (out : Bytes) (maxSize : UInt32) (g : Garbage)
    (hn : n < fs.superblock.totalInodes) (hfate : dv.fate t = true)
    (htype : (inodeAt dv.disk (readerInodeAddr n)).type = fssoTypeFile) :
    fssoReadFile (dv.withGarbage g) t fs n out maxSize =
      let r := copyBlocks (dv.withGarbage g) maxSize (inodePtrs dv.disk n) (t + 1)
        (g.stack (t + 1)) 0 out
      ⟨r.1.toNat, r.2.1, r.2.2⟩ := by
  have hread := fssoReadInode_withGarbage g.staleInode g hn hfate
  rw [fssoReadFile_of_inode out maxSize hread, if_neg (not_not_intro htype)]
  rfl

/-- Reading a file makes the same number of reads whatever a failed one leaves. -/
theorem fssoReadFile_clock (out : Bytes) (maxSize : UInt32) (g : Garbage)
    (hn : n < fs.superblock.totalInodes) (hfate : dv.fate t = true)
    (htype : (inodeAt dv.disk (readerInodeAddr n)).type = fssoTypeFile) :
    (fssoReadFile (dv.withGarbage g) t fs n out maxSize).clock =
      t + 1 + dataReads (inodePtrs dv.disk n) maxSize := by
  have hlen : (inodePtrs dv.disk n).length = 12 := by simp [inodePtrs]
  rw [fssoReadFile_of_file out maxSize g hn hfate htype]
  exact copyBlocks_clock (dv.withGarbage g) maxSize _ 0 (t + 1) _ out 0 (by omega) (by simp)

/-- After a failed inode read, garbage that looks like a file makes the call
succeed. -/
theorem fssoReadFile_of_garbage (out : Bytes) (maxSize : UInt32)
    (hn : n < fs.superblock.totalInodes) (hfate : dv.fate t = false) :
    0 ≤ (fssoReadFile (dv.withGarbage (.filled (typedBytes n fssoTypeFile))) t fs n out
        maxSize).ret ∧
      t < (fssoReadFile (dv.withGarbage (.filled (typedBytes n fssoTypeFile))) t fs n out
        maxSize).clock := by
  let garbage := dv.withGarbage (.filled (typedBytes n fssoTypeFile))
  have hread : fssoReadInode garbage t fs n garbage.staleInode = ⟨0, _, t + 1⟩ :=
    fssoReadInode_of_failed (typedBytes n fssoTypeFile) garbage.staleInode hn hfate
  have htype := typedBytes_type n fssoTypeFile
  have hclock := copyBlocks_clock garbage maxSize
    (inodeAt (typedBytes n fssoTypeFile) (inodeSize * (n % (1024 / 76)).toNat)).direct.toList
    0 (t + 1) (garbage.stack (t + 1)) out 0 (by simp) (by simp)
  have hfile := fssoReadFile_of_inode out maxSize hread
  rw [if_neg (not_not_intro htype)] at hfile
  change 0 ≤ (fssoReadFile garbage t fs n out maxSize).ret ∧
    t < (fssoReadFile garbage t fs n out maxSize).clock
  rw [hfile]
  dsimp only
  rw [hclock]
  exact ⟨Int.natCast_nonneg _, by omega⟩

/-- The file case: every data read has to succeed. -/
theorem fssoReadFile_unspoiled_of_file (out : Bytes) (maxSize : UInt32)
    (hn : n < fs.superblock.totalInodes) (hfate : dv.fate t = true)
    (htype : (inodeAt dv.disk (readerInodeAddr n)).type = fssoTypeFile) :
    Unspoiled dv t (0 ≤ ·) (fun dv => fssoReadFile dv t fs n out maxSize) ↔
      ∀ j, j < dataReads (inodePtrs dv.disk n) maxSize → dv.fate (t + 1 + j) = true := by
  have hreply : ∀ g, fssoReadFile (dv.withGarbage g) t fs n out maxSize = _ :=
    fun g => fssoReadFile_of_file out maxSize g hn hfate htype
  have hclock := fun g => fssoReadFile_clock out maxSize g hn hfate htype
  constructor
  · intro h j hj
    have hret : 0 ≤ (fssoReadFile (dv.withGarbage dv.toGarbage) t fs n out maxSize).ret := by
      rw [hreply]
      exact Int.natCast_nonneg _
    have hend := hclock dv.toGarbage
    exact h.reads dv.toGarbage hret (t + 1 + j) (by omega) (by omega)
  · intro hdata
    have hlen : (inodePtrs dv.disk n).length = 12 := by simp [inodePtrs]
    have hconst : ∀ g, fssoReadFile (dv.withGarbage g) t fs n out maxSize =
        fssoReadFile (dv.withGarbage dv.toGarbage) t fs n out maxSize := by
      intro g
      have hroom : 0 + (inodePtrs dv.disk n).length ≤ 12 := by omega
      have hcount : (0 : UInt32).toNat = min (1024 * 0) maxSize.toNat := by simp
      have hsame : copyBlocks (dv.withGarbage g) maxSize _ _ _ 0 out = _ :=
        copyBlocks_congr g dv.toGarbage (g.stack (t + 1)) (dv.stack (t + 1)) hroom hcount hdata
      rw [hreply, hreply, hsame]
    refine Unspoiled.of_const hconst ?_
    intro _ k hlo hhi
    rw [hclock] at hhi
    by_cases hk : k = t
    · exact hk ▸ hfate
    · have hlater := hdata (k - (t + 1)) (by omega)
      rwa [Nat.add_sub_cancel' (by omega)] at hlater

end ReadFile

/-- **File read.**  The inode's read has to succeed, and, for a file, every data
read. -/
theorem fssoReadFile_unspoiled_iff (dv : Drive) (t : Nat) (fs : FssoFilesystem) (n : UInt32)
    (out : Bytes) (maxSize : UInt32) :
    Unspoiled dv t (0 ≤ ·) (fun dv => fssoReadFile dv t fs n out maxSize) ↔
      fs.superblock.totalInodes ≤ n ∨
      (dv.fate t = true ∧ ((inodeAt dv.disk (readerInodeAddr n)).type ≠ fssoTypeFile ∨
        ∀ j, j < dataReads (inodePtrs dv.disk n) maxSize → dv.fate (t + 1 + j) = true)) := by
  by_cases hn : n < fs.superblock.totalInodes
  · rw [or_iff_right (UInt32.not_le.mpr hn)]
    cases hfate : dv.fate t with
    | false =>
        obtain ⟨hret, hclock⟩ := fssoReadFile_of_garbage out maxSize hn hfate
        refine ⟨fun h => ?_, fun hbad => absurd hbad.1 (by decide)⟩
        have hok := h.reads (.filled (typedBytes n fssoTypeFile)) hret t (Nat.le_refl t) hclock
        rw [hfate] at hok
        cases hok
    | true =>
        by_cases htype : (inodeAt dv.disk (readerInodeAddr n)).type = fssoTypeFile
        · rw [fssoReadFile_unspoiled_of_file out maxSize hn hfate htype]
          simp [htype]
        · have hread : ∀ g, fssoReadFile (dv.withGarbage g) t fs n out maxSize =
              ⟨-2, out, t + 1⟩ := by
            intro g
            rw [fssoReadFile_of_inode out maxSize
              (fssoReadInode_withGarbage g.staleInode g hn hfate)]
            exact if_pos htype
          refine ⟨fun _ => ⟨rfl, Or.inl htype⟩, fun _ => Unspoiled.of_const hread ?_⟩
          intro hbad
          have hneg : (0 : Int) ≤ -2 := hbad
          exact absurd hneg (by decide)
  · have hrange : fs.superblock.totalInodes ≤ n := UInt32.not_lt.mp hn
    have hrefused : ∀ g, fssoReadFile (dv.withGarbage g) t fs n out maxSize =
        ⟨-1, out, t⟩ := by
      intro g
      simp [fssoReadFile, fssoReadInode_of_range _ t _ hrange]
    refine ⟨fun _ => Or.inl hrange, fun _ => Unspoiled.of_const hrefused ?_⟩
    intro hbad
    have hneg : (0 : Int) ≤ -1 := hbad
    exact absurd hneg (by decide)

/-! ## Searching a directory -/

theorem nameMatches_congr {s s' : Bytes} {pos : Nat} {name : List UInt8}
    (h : SameOn s s' pos (name.length + 1)) : nameMatches s pos name = nameMatches s' pos name := by
  induction name generalizing pos with
  | nil =>
      rw [nameMatches, nameMatches, h pos (Nat.le_refl pos) (by simp)]
  | cons c rest ih =>
      rw [List.length_cons] at h
      have hrest : nameMatches s (pos + 1) rest = nameMatches s' (pos + 1) rest :=
        ih fun x _ _ => h x (by omega) (by omega)
      rw [nameMatches, nameMatches, h pos (Nat.le_refl pos) (by omega), hrest]

/-- Names of at most 255 characters are compared inside the block. -/
theorem findEntry_congr {s s' : Bytes} {name : List UInt8} (hname : name.length ≤ fssoMaxFilename)
    (h : SameOn s s' 0 1024) {j fuel : Nat} (hroom : j + fuel ≤ 3) :
    findEntry s name j fuel = findEntry s' name j fuel := by
  induction fuel generalizing j with
  | zero => rfl
  | succ fuel ih =>
      have hmax : fssoMaxFilename = 255 := rfl
      have haddr := entryAddr_eq 0 j
      have hinode : word32 s (entryAddr 0 j) = word32 s' (entryAddr 0 j) :=
        word32_congr fun x _ _ => h x (by omega) (by omega)
      have hmatch : nameMatches s (entryAddr 0 j + 4) name =
          nameMatches s' (entryAddr 0 j + 4) name :=
        nameMatches_congr fun x _ _ => h x (by omega) (by omega)
      rw [findEntry, findEntry, hinode, hmatch, ih (by omega)]

/-- What a successful read of block `b` lets the search find. -/
theorem findEntry_readBlock {dv : Drive} {name : List UInt8} {t : Nat} (b : UInt32)
    (buffer : Bytes) (hname : name.length ≤ fssoMaxFilename) (hfate : dv.fate t = true) :
    findEntry (readBlock dv t b buffer) name 0 entriesPerBlock =
      findEntry (blockAt dv.disk b) name 0 entriesPerBlock :=
  findEntry_congr hname
    (fun _ _ hx => readBlock_of_ok b buffer hfate (by omega)) (by decide)

/-- What the search finds on the disk. -/
def searchDisk (disk : Bytes) (name : List UInt8) : List UInt32 → Option UInt32
  | [] => none
  | b :: rest =>
      if b = 0 then none
      else (findEntry (blockAt disk b) name 0 entriesPerBlock).or (searchDisk disk name rest)

/-- How many directory blocks it reads: up to the first one that holds the name, or
all. -/
def dirReads (disk : Bytes) (name : List UInt8) : List UInt32 → Nat
  | [] => 0
  | b :: rest =>
      if b = 0 then 0
      else if (findEntry (blockAt disk b) name 0 entriesPerBlock).isSome then 1
      else dirReads disk name rest + 1

/-- With these reads succeeding, the garbage is immaterial. -/
theorem scanDir_of_ok {dv : Drive} (g : Garbage) {name : List UInt8} {ptrs : List UInt32} {t : Nat}
    (buffer : Bytes) (hname : name.length ≤ fssoMaxFilename)
    (hfate : ∀ j, j < dirReads dv.disk name ptrs → dv.fate (t + j) = true) :
    scanDir (dv.withGarbage g) name ptrs t buffer =
      (searchDisk dv.disk name ptrs, t + dirReads dv.disk name ptrs) := by
  induction ptrs generalizing t buffer with
  | nil => rfl
  | cons b rest ih =>
      unfold dirReads at hfate
      unfold scanDir searchDisk dirReads
      by_cases hb : b = 0
      · rw [if_pos hb, if_pos hb, if_pos hb]
        rfl
      · rw [if_neg hb] at hfate
        rw [if_neg hb, if_neg hb, if_neg hb]
        have hnow : dv.fate t = true := hfate 0 (by split <;> omega)
        have hread : findEntry (readBlock (dv.withGarbage g) t b buffer) name 0 entriesPerBlock =
            findEntry (blockAt dv.disk b) name 0 entriesPerBlock :=
          findEntry_readBlock b buffer hname hnow
        cases hfound : findEntry (blockAt dv.disk b) name 0 entriesPerBlock with
        | some m =>
            rw [hfound] at hread
            simp only [hread, Option.some_or, Option.isSome_some, if_true]
        | none =>
            rw [hfound] at hread hfate
            simp only [hread, Option.none_or, Option.isSome_none, Bool.false_eq_true, if_false]
              at hfate ⊢
            have hrest := ih (t := t + 1) (readBlock (dv.withGarbage g) t b buffer) fun j hj => by
              have hlater := hfate (j + 1) (by omega)
              rwa [Nat.add_right_comm t 1 j]
            rw [hrest, Nat.add_right_comm]
            rfl

/-- A buffer whose first directory entry has the given inode and name. -/
def entryBuffer (name : List UInt8) (inode : UInt32) : Bytes :=
  putWord32 (fun i => name.getD (i - 4) 0) 0 inode

/-- A buffer that spells the name matches it. -/
theorem nameMatches_of_bytes {s : Bytes} {pos : Nat} {name : List UInt8}
    (h : ∀ k, s (pos + k) = name.getD k 0) : nameMatches s pos name = true := by
  induction name generalizing pos with
  | nil =>
      have hnul := h 0
      simp only [Nat.add_zero, List.getD_nil] at hnul
      simp [nameMatches, hnul]
  | cons c rest ih =>
      have hhere : s pos = c := by simpa using h 0
      have hrest : nameMatches s (pos + 1) rest = true := by
        apply ih
        intro k
        have hk := h (k + 1)
        rwa [List.getD_cons_succ, ← Nat.add_assoc, Nat.add_right_comm] at hk
      simp [nameMatches, hhere, hrest]

theorem findEntry_entryBuffer (name : List UInt8) {inode : UInt32} (hinode : inode ≠ 0) :
    findEntry (entryBuffer name inode) name 0 entriesPerBlock = some inode := by
  have hfield : word32 (entryBuffer name inode) (entryAddr 0 0) = inode :=
    word32_putWord32 _ 0 inode
  have hname : nameMatches (entryBuffer name inode) (entryAddr 0 0 + 4) name = true := by
    apply nameMatches_of_bytes
    intro k
    have haddr : entryAddr 0 0 + 4 + k = 4 + k := by rw [entryAddr_eq]
    rw [haddr, entryBuffer, putWord32_of_out _ _ (by omega), Nat.add_sub_cancel_left]
  have hthree : entriesPerBlock = 2 + 1 := rfl
  rw [hthree, findEntry, hfield, if_neg hinode, hname, if_pos rfl]

section FindInDir

variable {dv : Drive} {t : Nat} {fs : FssoFilesystem} {n : UInt32}

/-- The reply of the search for an outcome of the block loop. -/
def dirReply (out : UInt32) : Option UInt32 × Nat → Reply UInt32
  | (some m, t') => ⟨0, m, t'⟩
  | (none, t') => ⟨-3, out, t'⟩

/-- The search once the inode is there. -/
theorem fssoFindInDir_of_inode {inode : FssoInode} (name : List UInt8) (out : UInt32)
    (hread : fssoReadInode dv t fs n dv.staleInode = ⟨0, inode, t + 1⟩) :
    fssoFindInDir dv t fs n name out =
      if inode.type ≠ fssoTypeDir then ⟨-2, out, t + 1⟩
      else dirReply out (scanDir dv name inode.direct.toList (t + 1) (dv.stack (t + 1))) := by
  simp only [fssoFindInDir, hread, ne_eq, not_true_eq_false, if_false]
  rfl

/-- With the inode read, a directory's reply is that of the block loop. -/
theorem fssoFindInDir_of_dir (name : List UInt8) (out : UInt32) (g : Garbage)
    (hn : n < fs.superblock.totalInodes) (hfate : dv.fate t = true)
    (htype : (inodeAt dv.disk (readerInodeAddr n)).type = fssoTypeDir) :
    fssoFindInDir (dv.withGarbage g) t fs n name out =
      dirReply out (scanDir (dv.withGarbage g) name (inodePtrs dv.disk n) (t + 1)
        (g.stack (t + 1))) := by
  have hread := fssoReadInode_withGarbage g.staleInode g hn hfate
  rw [fssoFindInDir_of_inode name out hread, if_neg (not_not_intro htype)]
  rfl

theorem scanDir_of_zero {name : List UInt8} {ptrs : List UInt32} {buffer : Bytes}
    (h : ptrs.getD 0 0 = 0) : scanDir dv name ptrs t buffer = (none, t) := by
  cases ptrs with
  | nil => rfl
  | cons b rest =>
      rw [List.getD_cons_zero] at h
      rw [scanDir, if_pos h]

/-- After a failed inode read, garbage decides between the error codes. -/
theorem fssoFindInDir_of_garbage (name : List UInt8) (out : UInt32)
    (hn : n < fs.superblock.totalInodes) (hfate : dv.fate t = false) :
    (fssoFindInDir (dv.withGarbage (.filled (typedBytes n fssoTypeFile))) t fs n name out).ret =
        -2 ∧
      (fssoFindInDir (dv.withGarbage (.filled (typedBytes n fssoTypeDir))) t fs n name out).ret =
        -3 := by
  constructor
  · let garbage := dv.withGarbage (.filled (typedBytes n fssoTypeFile))
    have hread : fssoReadInode garbage t fs n garbage.staleInode = ⟨0, _, t + 1⟩ :=
      fssoReadInode_of_failed (typedBytes n fssoTypeFile) garbage.staleInode hn hfate
    have htype : (inodeAt (typedBytes n fssoTypeFile)
        (inodeSize * (n % (1024 / 76)).toNat)).type ≠ fssoTypeDir := by
      rw [typedBytes_type]
      decide
    have hfind := fssoFindInDir_of_inode name out hread
    rw [if_pos htype] at hfind
    exact congrArg Reply.ret hfind
  · let garbage := dv.withGarbage (.filled (typedBytes n fssoTypeDir))
    have hread : fssoReadInode garbage t fs n garbage.staleInode = ⟨0, _, t + 1⟩ :=
      fssoReadInode_of_failed (typedBytes n fssoTypeDir) garbage.staleInode hn hfate
    have htype := typedBytes_type n fssoTypeDir
    have hfind := fssoFindInDir_of_inode name out hread
    have hzero : word32 (typedBytes n fssoTypeDir)
        (inodeSize * (n % (1024 / 76)).toNat + 16 + 4 * 0) = 0 := by
      rw [typedBytes, word32_put_of_out _ _ (by omega)]
      rfl
    have hempty : scanDir garbage name
        (inodeAt (typedBytes n fssoTypeDir) (inodeSize * (n % (1024 / 76)).toNat)).direct.toList
        (t + 1) (garbage.stack (t + 1)) = (none, t + 1) :=
      scanDir_of_zero (by simpa [inodeAt] using hzero)
    rw [if_neg (not_not_intro htype), hempty] at hfind
    exact congrArg Reply.ret hfind

/-- A failed block read leaves the choice of the inode to the buffer. -/
theorem scanDir_of_failed {name : List UInt8} {ptrs : List UInt32} {j : Nat} {inode : UInt32}
    (buffer : Bytes) (hname : name.length ≤ fssoMaxFilename) (hinode : inode ≠ 0)
    (hj : j < dirReads dv.disk name ptrs) (hbefore : ∀ i, i < j → dv.fate (t + i) = true)
    (hfailed : dv.fate (t + j) = false) :
    (scanDir (dv.withGarbage (.filled (entryBuffer name inode))) name ptrs t buffer).1 =
      some inode := by
  induction ptrs generalizing t j buffer with
  | nil => exact absurd hj (Nat.not_lt_zero j)
  | cons b rest ih =>
      unfold dirReads at hj
      by_cases hb : b = 0
      · rw [if_pos hb] at hj
        exact absurd hj (Nat.not_lt_zero j)
      rw [if_neg hb] at hj
      unfold scanDir
      rw [if_neg hb]
      dsimp only
      cases j with
      | zero =>
          have hfound : findEntry (readBlock (dv.withGarbage (.filled (entryBuffer name inode)))
              t b buffer) name 0 entriesPerBlock = some inode :=
            (findEntry_congr hname (readBlock_filled _ b buffer hfailed) (by decide)).trans
              (findEntry_entryBuffer name hinode)
          rw [hfound]
      | succ j =>
          have hnow : dv.fate t = true := hbefore 0 (by omega)
          have hread : findEntry (readBlock (dv.withGarbage (.filled (entryBuffer name inode)))
              t b buffer) name 0 entriesPerBlock =
                findEntry (blockAt dv.disk b) name 0 entriesPerBlock :=
            findEntry_readBlock b buffer hname hnow
          cases hfound : findEntry (blockAt dv.disk b) name 0 entriesPerBlock with
          | some m =>
              rw [hfound, Option.isSome_some, if_pos rfl] at hj
              omega
          | none =>
              rw [hfound] at hj hread
              rw [hread]
              have htime : ∀ i, t + 1 + i = t + (i + 1) := fun i => by omega
              refine ih (t := t + 1) (j := j) _ (by simpa using hj) (fun i hi => ?_) ?_
              · rw [htime]
                exact hbefore (i + 1) (by omega)
              · rw [htime]
                exact hfailed

/-- The directory case: every block read of the search has to succeed. -/
theorem fssoFindInDir_unspoiled_of_dir (name : List UInt8) (out : UInt32)
    (hname : name.length ≤ fssoMaxFilename) (hn : n < fs.superblock.totalInodes)
    (hfate : dv.fate t = true)
    (htype : (inodeAt dv.disk (readerInodeAddr n)).type = fssoTypeDir) :
    Unspoiled dv t (· = 0) (fun dv => fssoFindInDir dv t fs n name out) ↔
      ∀ j, j < dirReads dv.disk name (inodePtrs dv.disk n) → dv.fate (t + 1 + j) = true := by
  constructor
  · intro h
    by_contra hnot
    -- At the first failed read, two buffers lead to two inodes.
    have hsome : ∃ j, j < dirReads dv.disk name (inodePtrs dv.disk n) ∧
        dv.fate (t + 1 + j) = false := by
      simpa using hnot
    obtain ⟨hj, hfailed⟩ := Nat.find_spec hsome
    have hbefore : ∀ i, i < Nat.find hsome → dv.fate (t + 1 + i) = true := by
      intro i hi
      by_contra hbad
      exact Nat.find_min hsome hi ⟨by omega, Bool.eq_false_iff.mpr hbad⟩
    have hfound : ∀ inode : UInt32, inode ≠ 0 →
        (fssoFindInDir (dv.withGarbage (.filled (entryBuffer name inode))) t fs n name out).out =
          inode := by
      intro inode hinode
      have hscan := scanDir_of_failed (entryBuffer name inode) hname hinode hj hbefore
        hfailed
      rw [fssoFindInDir_of_dir name out _ hn hfate htype]
      generalize hresult : scanDir (dv.withGarbage (.filled (entryBuffer name inode))) name
        (inodePtrs dv.disk n) (t + 1) _ = result
      have hfirst : result.1 = some inode := by
        rw [← hresult]
        exact hscan
      obtain ⟨found, t'⟩ := result
      subst hfirst
      rfl
    have hsame := h.out (.filled (entryBuffer name 1)) (.filled (entryBuffer name 2))
    rw [hfound 1 (by decide), hfound 2 (by decide)] at hsame
    exact absurd hsame (by decide)
  · intro hreads
    have hreply : ∀ g, fssoFindInDir (dv.withGarbage g) t fs n name out =
        dirReply out (searchDisk dv.disk name (inodePtrs dv.disk n),
          t + 1 + dirReads dv.disk name (inodePtrs dv.disk n)) := by
      intro g
      rw [fssoFindInDir_of_dir name out g hn hfate htype, scanDir_of_ok g _ hname hreads]
    refine Unspoiled.of_const hreply ?_
    intro _ k hlo hhi
    have hend : k < t + 1 + dirReads dv.disk name (inodePtrs dv.disk n) := by
      cases hfound : searchDisk dv.disk name (inodePtrs dv.disk n) with
      | some m =>
          rw [hfound] at hhi
          exact hhi
      | none =>
          rw [hfound] at hhi
          exact hhi
    by_cases hk : k = t
    · exact hk ▸ hfate
    · have hlater := hreads (k - (t + 1)) (by omega)
      rwa [Nat.add_sub_cancel' (by omega)] at hlater

end FindInDir

/-- **Directory search.**  The inode's read has to succeed, and, for a directory,
every block read up to the block that holds the name. -/
theorem fssoFindInDir_unspoiled_iff (dv : Drive) (t : Nat) (fs : FssoFilesystem) (n : UInt32)
    (name : List UInt8) (hname : name.length ≤ fssoMaxFilename) (out : UInt32) :
    Unspoiled dv t (· = 0) (fun dv => fssoFindInDir dv t fs n name out) ↔
      fs.superblock.totalInodes ≤ n ∨
      (dv.fate t = true ∧ ((inodeAt dv.disk (readerInodeAddr n)).type ≠ fssoTypeDir ∨
        ∀ j, j < dirReads dv.disk name (inodePtrs dv.disk n) → dv.fate (t + 1 + j) = true)) := by
  by_cases hn : n < fs.superblock.totalInodes
  · rw [or_iff_right (UInt32.not_le.mpr hn)]
    cases hfate : dv.fate t with
    | false =>
        obtain ⟨hfile, hdir⟩ := fssoFindInDir_of_garbage name out hn hfate
        refine ⟨fun h => ?_, fun hbad => absurd hbad.1 (by decide)⟩
        have hsame := h.ret (.filled (typedBytes n fssoTypeFile))
          (.filled (typedBytes n fssoTypeDir))
        exact absurd (hfile.symm.trans (hsame.trans hdir)) (by decide)
    | true =>
        by_cases htype : (inodeAt dv.disk (readerInodeAddr n)).type = fssoTypeDir
        · rw [fssoFindInDir_unspoiled_of_dir name out hname hn hfate htype]
          simp [htype]
        · have hread : ∀ g, fssoFindInDir (dv.withGarbage g) t fs n name out =
              ⟨-2, out, t + 1⟩ := by
            intro g
            rw [fssoFindInDir_of_inode name out
              (fssoReadInode_withGarbage g.staleInode g hn hfate)]
            exact if_pos htype
          refine ⟨fun _ => ⟨rfl, Or.inl htype⟩, fun _ => Unspoiled.of_const hread ?_⟩
          intro hbad
          have hneg : (-2 : Int) = 0 := hbad
          exact absurd hneg (by decide)
  · have hrange : fs.superblock.totalInodes ≤ n := UInt32.not_lt.mp hn
    have hrefused : ∀ g, fssoFindInDir (dv.withGarbage g) t fs n name out =
        ⟨-1, out, t⟩ := by
      intro g
      simp [fssoFindInDir, fssoReadInode_of_range _ t _ hrange]
    refine ⟨fun _ => Or.inl hrange, fun _ => Unspoiled.of_const hrefused ?_⟩
    intro hbad
    have hneg : (-1 : Int) = 0 := hbad
    exact absurd hneg (by decide)

/-! ## All four readers -/

/-- **Failed reads.**  For each reader, the exact patterns of failure under which
no failed read is turned into data and no garbage shows. -/
theorem readers_unspoiled_iff (dv : Drive) (t : Nat) (fs : FssoFilesystem) (n : UInt32)
    (name : List UInt8) (hname : name.length ≤ fssoMaxFilename) (outInode : FssoInode)
    (outNum maxSize : UInt32) (outBuffer : Bytes) :
    (Unspoiled dv t (· = 0) (fun dv => fssoMount dv t fs) ↔ dv.fate t = true) ∧
    (Unspoiled dv t (· = 0) (fun dv => fssoReadInode dv t fs n outInode) ↔
      fs.superblock.totalInodes ≤ n ∨ dv.fate t = true) ∧
    (Unspoiled dv t (· = 0) (fun dv => fssoFindInDir dv t fs n name outNum) ↔
      fs.superblock.totalInodes ≤ n ∨
      (dv.fate t = true ∧ ((inodeAt dv.disk (readerInodeAddr n)).type ≠ fssoTypeDir ∨
        ∀ j, j < dirReads dv.disk name (inodePtrs dv.disk n) → dv.fate (t + 1 + j) = true))) ∧
    (Unspoiled dv t (0 ≤ ·) (fun dv => fssoReadFile dv t fs n outBuffer maxSize) ↔
      fs.superblock.totalInodes ≤ n ∨
      (dv.fate t = true ∧ ((inodeAt dv.disk (readerInodeAddr n)).type ≠ fssoTypeFile ∨
        ∀ j, j < dataReads (inodePtrs dv.disk n) maxSize → dv.fate (t + 1 + j) = true))) :=
  ⟨fssoMount_unspoiled_iff dv t fs, fssoReadInode_unspoiled_iff dv t fs n outInode,
    fssoFindInDir_unspoiled_iff dv t fs n name hname outNum,
    fssoReadFile_unspoiled_iff dv t fs n outBuffer maxSize⟩

/-- A drive with the formatted image that dies after two reads. -/
def twoReadDrive : Drive := ⟨zeroMemory, mkfssoFormat, fun t => decide (t < 2)⟩

/-- A drive on which two calls run with no read spoiled. -/
theorem readers_unspoiled_iff_twoReads :
    Unspoiled twoReadDrive 0 (· = 0) (fun dv => fssoMount dv 0 formattedFs) ∧
    Unspoiled twoReadDrive 0 (· = 0) (fun dv => fssoFindInDir dv 0 formattedFs 0 [97] 0) := by
  have hall := readers_unspoiled_iff twoReadDrive 0 formattedFs 0 [97] (by decide) zeroInode 0 0
    (fun _ => 0)
  have hone : dirReads twoReadDrive.disk [97] (inodePtrs twoReadDrive.disk 0) = 1 := by
    decide +kernel
  have hreads : ∀ j, j < dirReads twoReadDrive.disk [97] (inodePtrs twoReadDrive.disk 0) →
      twoReadDrive.fate (0 + 1 + j) = true := by
    intro j hj
    obtain rfl : j = 0 := by omega
    rfl
  exact ⟨hall.1.mpr rfl, hall.2.2.1.mpr (Or.inr ⟨rfl, Or.inr hreads⟩)⟩

/-- A drive on which every read fails and transfers nothing; the stack still holds an
old superblock. -/
def deadDrive : Drive :=
  ⟨{ zeroMemory with stack := fun _ => mkfssoFormat }, fun _ => 0, fun _ => false⟩

/-- The dead drive is mounted. -/
theorem deadDrive_mounted :
    deadDrive.fate 0 = false ∧ (fssoMount deadDrive 0 formattedFs).clock = 1 ∧
      (fssoMount deadDrive 0 formattedFs).ret = 0 ∧
      (fssoMount (deadDrive.withGarbage zeroMemory) 0 formattedFs).ret = -1 := by
  decide +kernel

end Fsso
