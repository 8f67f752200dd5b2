import SimplrOS.Placement
import SimplrOS.ReadFault

/-!
# Reading any file

Whatever the inode holds, `fsso_read_file` stays inside the caller's buffer.  A round
of its loop copies at most one block to the place where the last one ended, and the
rounds end at the first zero pointer, at the last direct one, or at `max_size`.  So
what is read is the front part of the blocks the inode names, and a larger buffer
only gets more of it.
-/

namespace Fsso

open ByteStore

/-- `bytes_read` and `to_copy` of each round of `fsso_read_file`. -/
def copyRounds (maxSize : UInt32) : List UInt32 → UInt32 → List (UInt32 × UInt32)
  | [], _ => []
  | b :: rest, bytesRead =>
      if b = 0 then []
      else if bytesRead ≥ maxSize then []
      else
        let toCopy : UInt32 := if bytesRead + 1024 > maxSize then maxSize - bytesRead else 1024
        (bytesRead, toCopy) :: copyRounds maxSize rest (bytesRead + toCopy)

/-- The rounds of one call of `fsso_read_file`. -/
def fssoReadFileRounds (dv : Drive) (t : Nat) (fs : FssoFilesystem) (inodeNum maxSize : UInt32) :
    List (UInt32 × UInt32) :=
  let inode := fssoReadInode dv t fs inodeNum dv.staleInode
  if inode.ret ≠ 0 then []
  else if inode.out.type ≠ fssoTypeFile then []
  else copyRounds maxSize inode.out.direct.toList 0

/-- The indices of `out_buffer` that a round writes. -/
def roundStores (round : UInt32 × UInt32) : List UInt32 :=
  (List.range round.2.toNat).map fun j => round.1 + UInt32.ofNat j

/-- The operands of the 32-bit sums of a round: the test against `max_size`, the indices,
and the new count. -/
def roundSums (round : UInt32 × UInt32) : List (UInt32 × UInt32) :=
  (round.1, 1024) :: round :: (List.range round.2.toNat).map fun j => (round.1, UInt32.ofNat j)

/-- The operands of the 32-bit sums of one call, with the block number of the inode. -/
def fssoReadFileSums (dv : Drive) (t : Nat) (fs : FssoFilesystem) (inodeNum maxSize : UInt32) :
    List (UInt32 × UInt32) :=
  (if inodeNum ≥ fs.superblock.totalInodes then [] else [(3, inodeNum / (1024 / 76))]) ++
    (fssoReadFileRounds dv t fs inodeNum maxSize).flatMap roundSums

/-- What the caller gets. -/
def readBytes (r : Reply Bytes) : List UInt8 := (List.range r.ret.toNat).map r.out

/-- The concatenation of the blocks that inode `n` names. -/
def fileBytes (disk : Bytes) (n : UInt32) : List UInt8 :=
  blockBytes disk ((leadBlocks (inodePtrs disk n)).map UInt32.toNat)

/-- Reading inode `n` is safe for every buffer. -/
structure ReadSafe (dv : Drive) (fs : FssoFilesystem) (n : UInt32) : Prop where
  count : ∀ t out max, (fssoReadFile dv t fs n out max).ret ≤ max.toNat ∧
    (fssoReadFile dv t fs n out max).ret ≤ 12 * 1024
  stores : ∀ t out max, ∀ round ∈ fssoReadFileRounds dv t fs n max, ∀ i ∈ roundStores round,
    (i.toNat : Int) < (fssoReadFile dv t fs n out max).ret
  kept : ∀ t out max, ∀ i : Nat, (fssoReadFile dv t fs n out max).ret ≤ i →
    (fssoReadFile dv t fs n out max).out i = out i
  sums : ∀ t max, ∀ p ∈ fssoReadFileSums dv t fs n max, p.1.toNat + p.2.toNat < 2 ^ 32
  content : ∀ t out max, readBytes (fssoReadFile dv t fs n out max) <+: fileBytes dv.disk n
  refused : ∀ t out max, (fssoReadFile dv t fs n out max).ret < 0 →
    (fssoReadFile dv t fs n out max).out = out
  monotone : ∀ t t' out out' max max', max ≤ max' →
    readBytes (fssoReadFile dv t fs n out max) <+: readBytes (fssoReadFile dv t' fs n out' max')

/-! ## The rounds -/

/-- **Loop invariant.**  Every round starts behind at most eleven blocks and ends inside
the final count. -/
theorem copyRounds_bounds {maxSize : UInt32} {ptrs : List UInt32} {q : Nat} {bytesRead : UInt32}
    (hroom : q + ptrs.length ≤ 12) (hcount : bytesRead.toNat = min (1024 * q) maxSize.toNat) :
    ∀ round ∈ copyRounds maxSize ptrs bytesRead, round.1.toNat ≤ 11 * 1024 ∧
      round.2.toNat ≤ 1024 ∧
      round.1.toNat + round.2.toNat ≤
        min (1024 * (q + (leadBlocks ptrs).length)) maxSize.toNat := by
  induction ptrs generalizing q bytesRead with
  | nil => exact fun round hround => absurd hround List.not_mem_nil
  | cons b rest ih =>
      intro round hround
      rw [List.length_cons] at hroom
      unfold copyRounds at hround
      by_cases hb : b = 0
      · rw [if_pos hb] at hround
        exact absurd hround List.not_mem_nil
      · rw [if_neg hb] at hround
        by_cases hmore : bytesRead ≥ maxSize
        · rw [if_pos hmore] at hround
          exact absurd hround List.not_mem_nil
        · have hlead := length_leadBlocks_cons hb rest
          obtain ⟨hstart, hchunk, hcopy, hnext⟩ := nextCount (by omega) hcount hmore
          rw [if_neg hmore] at hround
          rcases List.mem_cons.mp hround with hhere | hlater
          · rw [hhere]
            dsimp only
            omega
          · obtain ⟨hlo, hlen, hsum⟩ := ih (q := q + 1) (by omega) hnext round hlater
            exact ⟨hlo, hlen, by omega⟩

/-! ## The reply -/

theorem leadBlocks_initial (ptrs : List UInt32) : leadBlocks ptrs <+: ptrs :=
  List.takeWhile_prefix _

/-- The front part of the named blocks, byte by byte. -/
theorem take_fileBytes (disk : Bytes) (n : UInt32) {k : Nat}
    (hk : k ≤ 1024 * (leadBlocks (inodePtrs disk n)).length) :
    (fileBytes disk n).take k = (List.range k).map (fileByte disk (inodePtrs disk n)) := by
  have hlen := length_blockBytes disk ((leadBlocks (inodePtrs disk n)).map UInt32.toNat)
  rw [List.length_map] at hlen
  apply List.ext_getElem
  · rw [List.length_take, fileBytes, hlen, List.length_map, List.length_range]
    omega
  · intro i _ hi
    rw [List.length_map, List.length_range] at hi
    have hblock : i / 1024 < (leadBlocks (inodePtrs disk n)).length := by omega
    have hptr : (inodePtrs disk n).getD (i / 1024) 0 =
        (leadBlocks (inodePtrs disk n))[i / 1024] := by
      rw [(leadBlocks_initial (inodePtrs disk n)).getElem hblock, ← List.getElem_eq_getD]
    have hbyte := getElem_blockBytes disk ((leadBlocks (inodePtrs disk n)).map UInt32.toNat)
      (i := i) (by rw [hlen]; omega) (by rw [List.length_map]; exact hblock)
    rw [List.getElem_take, List.getElem_map, List.getElem_range, fileByte, hptr]
    rw [List.getElem_map] at hbyte
    exact hbyte

/-- A read refuses the inode whatever the buffer, or returns the front part of the named
blocks. -/
theorem fssoReadFile_cases {dv : Drive} (hsound : dv.Sound) (fs : FssoFilesystem) (n : UInt32) :
    (∃ r : Int, r < 0 ∧ ∀ t out max, (fssoReadFile dv t fs n out max).ret = r ∧
      (fssoReadFile dv t fs n out max).out = out ∧ fssoReadFileRounds dv t fs n max = []) ∨
    ∀ t out (max : UInt32),
      let count := min (1024 * (leadBlocks (inodePtrs dv.disk n)).length) max.toNat
      (fssoReadFile dv t fs n out max).ret = count ∧
      (∀ i, (fssoReadFile dv t fs n out max).out i =
        if i < count then fileByte dv.disk (inodePtrs dv.disk n) i else out i) ∧
      fssoReadFileRounds dv t fs n max = copyRounds max (inodePtrs dv.disk n) 0 := by
  by_cases hrange : fs.superblock.totalInodes ≤ n
  · refine Or.inl ⟨-1, by decide, fun t out max => ?_⟩
    have hread := fssoReadInode_of_range dv t dv.staleInode hrange
    simp [fssoReadFile, fssoReadFileRounds, hread]
  · have hn := UInt32.not_le.mp hrange
    have hread := fun t => fssoReadInode_of_ok dv.staleInode hn (hsound t)
    by_cases htype : (inodeAt dv.disk (readerInodeAddr n)).type = fssoTypeFile
    · refine Or.inr fun t out max => ?_
      obtain ⟨hret, hbytes⟩ := fssoReadFile_sound hsound (t := t) hn out max htype
      refine ⟨hret, hbytes, ?_⟩
      simp [fssoReadFileRounds, hread, htype, inodePtrs]
    · refine Or.inl ⟨-2, by decide, fun t out max => ?_⟩
      simp [fssoReadFile, fssoReadFileRounds, hread, htype]

/-- What the caller gets of a file. -/
theorem readBytes_eq {dv : Drive} {n : UInt32} {r : Reply Bytes} {k : Nat}
    (hk : k ≤ 1024 * (leadBlocks (inodePtrs dv.disk n)).length) (hret : r.ret = k)
    (hbytes : ∀ i, i < k → r.out i = fileByte dv.disk (inodePtrs dv.disk n) i) :
    readBytes r = (fileBytes dv.disk n).take k := by
  rw [take_fileBytes dv.disk n hk, readBytes, hret, Int.toNat_natCast]
  exact List.map_congr_left fun i hi => hbytes i (List.mem_range.mp hi)

theorem readBytes_of_neg {r : Reply Bytes} (h : r.ret < 0) : readBytes r = [] := by
  rw [readBytes, Int.toNat_of_nonpos (by omega)]
  rfl

/-- No sum of a round wraps. -/
theorem roundSums_bounds {round : UInt32 × UInt32} (hstart : round.1.toNat ≤ 11 * 1024)
    (hlen : round.2.toNat ≤ 1024) : ∀ p ∈ roundSums round, p.1.toNat + p.2.toNat < 2 ^ 32 := by
  intro p hp
  rcases List.mem_cons.mp hp with htest | hp
  · rw [htest]
    simp only [UInt32.reduceToNat]
    omega
  · rcases List.mem_cons.mp hp with hnew | hindex
    · rw [hnew]
      omega
    · obtain ⟨j, hj, rfl⟩ := List.mem_map.mp hindex
      have hj' := List.mem_range.mp hj
      dsimp only
      rw [UInt32.toNat_ofNat']
      omega

/-- The stores of a round lie inside it. -/
theorem roundStores_bounds {round : UInt32 × UInt32} (hstart : round.1.toNat ≤ 11 * 1024)
    (hlen : round.2.toNat ≤ 1024) :
    ∀ i ∈ roundStores round, i.toNat < round.1.toNat + round.2.toNat := by
  intro i hi
  obtain ⟨j, hj, rfl⟩ := List.mem_map.mp hi
  have hj' := List.mem_range.mp hj
  rw [UInt32.toNat_add, UInt32.toNat_ofNat']
  omega

/-- No sum of a call wraps if its rounds are in bounds. -/
theorem fssoReadFileSums_bounds {dv : Drive} {t : Nat} {fs : FssoFilesystem} {n max : UInt32}
    (hrounds : ∀ round ∈ fssoReadFileRounds dv t fs n max,
      round.1.toNat ≤ 11 * 1024 ∧ round.2.toNat ≤ 1024) :
    ∀ p ∈ fssoReadFileSums dv t fs n max, p.1.toNat + p.2.toNat < 2 ^ 32 := by
  intro p hp
  rcases List.mem_append.mp hp with hinode | hloop
  · split at hinode
    · exact absurd hinode List.not_mem_nil
    · have hn := n.toNat_lt
      rw [List.mem_singleton.mp hinode]
      simp only [UInt32.toNat_div, UInt32.reduceToNat, Nat.reduceDiv]
      omega
  · obtain ⟨round, hround, hsum⟩ := List.mem_flatMap.mp hloop
    obtain ⟨hstart, hlen⟩ := hrounds round hround
    exact roundSums_bounds hstart hlen p hsum

/-- A refused inode. -/
theorem ReadSafe.of_refused {dv : Drive} {fs : FssoFilesystem} {n : UInt32} {r : Int} (hr : r < 0)
    (h : ∀ t out max, (fssoReadFile dv t fs n out max).ret = r ∧
      (fssoReadFile dv t fs n out max).out = out ∧ fssoReadFileRounds dv t fs n max = []) :
    ReadSafe dv fs n where
  count := by
    intro t out max
    rw [(h t out max).1]
    omega
  stores := by
    intro t out max round hround
    rw [(h t out max).2.2] at hround
    exact absurd hround List.not_mem_nil
  kept := fun t out max i _ => congrFun (h t out max).2.1 i
  sums := by
    intro t max
    apply fssoReadFileSums_bounds
    rw [(h t (fun _ => 0) max).2.2]
    exact fun round hround => absurd hround List.not_mem_nil
  content := by
    intro t out max
    rw [readBytes_of_neg ((h t out max).1 ▸ hr)]
    exact List.nil_prefix
  refused := fun t out max _ => (h t out max).2.1
  monotone := by
    intro t t' out out' max max' _
    rw [readBytes_of_neg ((h t out max).1 ▸ hr)]
    exact List.nil_prefix

/-- **Reading any file.**  Whatever the disk, the inode number and the buffer size. -/
theorem fssoReadFile_safe (dv : Drive) (hsound : dv.Sound) (fs : FssoFilesystem) (n : UInt32) :
    ReadSafe dv fs n := by
  rcases fssoReadFile_cases hsound fs n with ⟨r, hr, hrefused⟩ | hfile
  · exact ReadSafe.of_refused hr hrefused
  have hptrs : (inodePtrs dv.disk n).length = 12 := by simp [inodePtrs]
  have hlead : (leadBlocks (inodePtrs dv.disk n)).length ≤ 12 :=
    hptrs ▸ (leadBlocks_initial _).length_le
  have hrounds : ∀ t max, ∀ round ∈ fssoReadFileRounds dv t fs n max,
      round.1.toNat ≤ 11 * 1024 ∧ round.2.toNat ≤ 1024 ∧ round.1.toNat + round.2.toNat ≤
        min (1024 * (leadBlocks (inodePtrs dv.disk n)).length) max.toNat := by
    intro t max round hround
    rw [(hfile t (fun _ => 0) max).2.2] at hround
    have hbounds := copyRounds_bounds (q := 0) (by omega) (by simp) round hround
    rwa [Nat.zero_add] at hbounds
  have hbytes : ∀ t out (max : UInt32), readBytes (fssoReadFile dv t fs n out max) =
      (fileBytes dv.disk n).take
        (min (1024 * (leadBlocks (inodePtrs dv.disk n)).length) max.toNat) := by
    intro t out max
    obtain ⟨hret, hout, _⟩ := hfile t out max
    exact readBytes_eq (Nat.min_le_left _ _) hret fun i hi => by rw [hout i, if_pos hi]
  constructor
  case count =>
    intro t out max
    rw [(hfile t out max).1]
    omega
  case stores =>
    intro t out max round hround i hi
    obtain ⟨hstart, hlen, hend⟩ := hrounds t max round hround
    have hlt := roundStores_bounds hstart hlen i hi
    rw [(hfile t out max).1]
    omega
  case kept =>
    intro t out max i hi
    obtain ⟨hret, hout, _⟩ := hfile t out max
    rw [hret] at hi
    rw [hout i, if_neg (by omega)]
  case sums =>
    exact fun t max => fssoReadFileSums_bounds fun round hround =>
      ⟨(hrounds t max round hround).1, (hrounds t max round hround).2.1⟩
  case content =>
    intro t out max
    rw [hbytes]
    exact List.take_prefix _ _
  case refused =>
    intro t out max hneg
    rw [(hfile t out max).1] at hneg
    omega
  case monotone =>
    intro t t' out out' max max' hle
    have hnat := UInt32.le_iff_toNat_le.mp hle
    rw [hbytes, hbytes]
    exact List.take_prefix_take_left (by omega)

/-- The stored file, read with any buffer. -/
theorem fssoReadFile_safe_hello : ReadSafe helloDrive formattedFs 1 :=
  fssoReadFile_safe helloDrive (fun _ => rfl) formattedFs 1

end Fsso
