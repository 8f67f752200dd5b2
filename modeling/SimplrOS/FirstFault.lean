import SimplrOS.FileShell
import SimplrOS.Typing

/-!
# Sessions up to the first fault

`read_block` drops the result of `ahci_read`, so after a failed read a command goes on
with whatever is in its buffer.  Until then the kernel is correct: what it has drawn by the
end of a span of keys whose reads have all succeeded is what the files determine, and
it stays on the screen, whatever the drive does afterwards.  The line that is being
typed and the number of reads do not depend on the drive at all.

Over a span of reads that all succeed, a drive does what the same drive does without any
faults (`Drive.mended`).  This carries over from one block to the whole session.
-/

namespace Fsso

open ByteStore

/-- The reads from number `t` up to number `t'` succeed. -/
def Drive.Delivers (dv : Drive) (t t' : Nat) : Prop := ∀ u, t ≤ u → u < t' → dv.fate u = true

/-- The drive without its faults. -/
def Drive.mended (dv : Drive) : Drive := { dv with fate := fun _ => true }

/-- It has none. -/
theorem Drive.mended_sound (dv : Drive) : dv.mended.Sound := fun _ => rfl

/-- A shorter span. -/
theorem Drive.Delivers.mono {dv : Drive} {t t' u u' : Nat} (h : dv.Delivers t t') (hlo : t ≤ u)
    (hhi : u' ≤ t') : dv.Delivers u u' :=
  fun v hv hv' => h v (Nat.le_trans hlo hv) (Nat.lt_of_lt_of_le hv' hhi)

/-- The first read of the span. -/
theorem Drive.Delivers.first {dv : Drive} {t t' : Nat} (h : dv.Delivers t t') (hlt : t < t') :
    dv.fate t = true := h t (Nat.le_refl t) hlt

/-! ## The reader -/

section Reader

variable {dv : Drive} {t : Nat}

/-- A read that succeeds. -/
theorem readBlock_mended (b : UInt32) (buffer : Bytes) (h : dv.fate t = true) :
    readBlock dv t b buffer = readBlock dv.mended t b buffer := by
  simp only [readBlock, Drive.ahciRead, h, if_true]
  rfl

/-- `fsso_read_inode` makes at most one read. -/
theorem fssoReadInode_reads (dv : Drive) (t : Nat) (fs : FssoFilesystem) (n : UInt32)
    (out : FssoInode) : t ≤ (fssoReadInode dv t fs n out).clock ∧
      (fssoReadInode dv t fs n out).clock ≤ t + 1 := by
  rw [fssoReadInode]
  split
  · exact ⟨Nat.le_refl t, Nat.le_succ t⟩
  · exact ⟨Nat.le_succ t, Nat.le_refl _⟩

/-- An inode whose read succeeds. -/
theorem fssoReadInode_mended (fs : FssoFilesystem) (n : UInt32) (out : FssoInode)
    (h : dv.Delivers t (fssoReadInode dv t fs n out).clock) :
    fssoReadInode dv t fs n out = fssoReadInode dv.mended t fs n out := by
  rw [fssoReadInode] at h ⊢
  rw [fssoReadInode]
  split
  · rfl
  case isFalse hn =>
    rw [if_neg hn] at h
    have hfate := h.first (Nat.lt_succ_self t)
    dsimp only
    rw [readBlock_mended _ _ hfate]
    rfl

/-- A directory is read once over. -/
theorem scanDir_reads (dv : Drive) (name : List UInt8) (ptrs : List UInt32) (t : Nat)
    (buffer : Bytes) : t ≤ (scanDir dv name ptrs t buffer).2 ∧
      (scanDir dv name ptrs t buffer).2 ≤ t + ptrs.length := by
  induction ptrs generalizing t buffer with
  | nil => exact ⟨Nat.le_refl t, Nat.le_refl t⟩
  | cons b rest ih =>
      obtain ⟨hlo, hhi⟩ := ih (t + 1) (readBlock dv t b buffer)
      rw [scanDir, List.length_cons]
      split
      · exact ⟨Nat.le_refl t, Nat.le_add_right t _⟩
      · dsimp only
        split
        · exact ⟨Nat.le_succ t, by omega⟩
        · exact ⟨by omega, by omega⟩

/-- A directory whose reads succeed. -/
theorem scanDir_mended (name : List UInt8) {ptrs : List UInt32} {buffer : Bytes}
    (h : dv.Delivers t (scanDir dv name ptrs t buffer).2) :
    scanDir dv name ptrs t buffer = scanDir dv.mended name ptrs t buffer := by
  induction ptrs generalizing t buffer with
  | nil => rfl
  | cons b rest ih =>
      have hclock := (scanDir_reads dv name rest (t + 1) (readBlock dv t b buffer)).1
      rw [scanDir] at h ⊢
      rw [scanDir]
      by_cases hb : b = 0
      · rw [if_pos hb, if_pos hb]
      · rw [if_neg hb] at h ⊢
        rw [if_neg hb]
        dsimp only at h ⊢
        have hfate : dv.fate t = true := by
          refine h.first ?_
          split
          · exact Nat.lt_succ_self t
          · exact hclock
        rw [← readBlock_mended _ _ hfate]
        split
        · rfl
        case h_2 hnone =>
          simp only [hnone] at h
          exact ih (h.mono (Nat.le_succ t) (Nat.le_refl _))

/-- The clock does not go back. -/
theorem le_copyBlocks_reads (dv : Drive) (maxSize : UInt32) (ptrs : List UInt32) (t : Nat)
    (buffer out : Bytes) (bytesRead : UInt32) :
    t ≤ (copyBlocks dv maxSize ptrs t buffer bytesRead out).2.2 := by
  induction ptrs generalizing t buffer bytesRead out with
  | nil => exact Nat.le_refl t
  | cons b rest ih =>
      rw [copyBlocks]
      split
      · exact Nat.le_refl t
      · split
        · exact Nat.le_refl t
        · exact Nat.le_trans (Nat.le_succ t) (ih ..)

/-- A file whose reads succeed. -/
theorem copyBlocks_mended (maxSize : UInt32) {ptrs : List UInt32} {buffer out : Bytes}
    {bytesRead : UInt32}
    (h : dv.Delivers t (copyBlocks dv maxSize ptrs t buffer bytesRead out).2.2) :
    copyBlocks dv maxSize ptrs t buffer bytesRead out =
      copyBlocks dv.mended maxSize ptrs t buffer bytesRead out := by
  induction ptrs generalizing t buffer bytesRead out with
  | nil => rfl
  | cons b rest ih =>
      rw [copyBlocks] at h ⊢
      rw [copyBlocks]
      split
      · rfl
      case isFalse hb =>
        rw [if_neg hb] at h
        split
        · rfl
        case isFalse hfull =>
          rw [if_neg hfull] at h
          dsimp only at h ⊢
          have hfate := h.first (le_copyBlocks_reads ..)
          rw [← readBlock_mended _ _ hfate]
          exact ih (h.mono (Nat.le_succ t) (Nat.le_refl _))

end Reader

section Calls

variable {dv : Drive} {t : Nat} {fs : FssoFilesystem}

/-- The reads of the inode come first. -/
theorem fssoFindInDir_inode (dv : Drive) (t : Nat) (fs : FssoFilesystem) (n : UInt32)
    (name : List UInt8) (out : UInt32) :
    (fssoReadInode dv t fs n dv.staleInode).clock ≤ (fssoFindInDir dv t fs n name out).clock ∧
      (fssoFindInDir dv t fs n name out).clock ≤
        (fssoReadInode dv t fs n dv.staleInode).clock + 12 := by
  rw [fssoFindInDir]
  generalize fssoReadInode dv t fs n dv.staleInode = inode
  split
  · exact ⟨Nat.le_refl _, Nat.le_add_right _ 12⟩
  · split
    · exact ⟨Nat.le_refl _, Nat.le_add_right _ 12⟩
    · have hscan := scanDir_reads dv name inode.out.direct.toList inode.clock
        (dv.stack inode.clock)
      rw [Vector.length_toList] at hscan
      split
      case h_1 heq =>
        rw [heq] at hscan
        exact hscan
      case h_2 heq =>
        rw [heq] at hscan
        exact hscan

/-- `fsso_find_in_dir` with reads that succeed. -/
theorem fssoFindInDir_mended (n : UInt32) (name : List UInt8) (out : UInt32)
    (h : dv.Delivers t (fssoFindInDir dv t fs n name out).clock) :
    fssoFindInDir dv t fs n name out = fssoFindInDir dv.mended t fs n name out := by
  have hfirst := (fssoFindInDir_inode dv t fs n name out).1
  have hinode : fssoReadInode dv t fs n dv.staleInode =
      fssoReadInode dv.mended t fs n dv.mended.staleInode :=
    fssoReadInode_mended fs n dv.staleInode (h.mono (Nat.le_refl t) hfirst)
  have hlo := (fssoReadInode_reads dv t fs n dv.staleInode).1
  rw [fssoFindInDir] at h ⊢
  rw [fssoFindInDir, ← hinode]
  generalize fssoReadInode dv t fs n dv.staleInode = inode at h hlo
  split
  · rfl
  case isFalse hread =>
    rw [if_neg hread] at h
    split
    · rfl
    case isFalse hdir =>
      rw [if_neg hdir] at h
      have hscan : scanDir dv name inode.out.direct.toList inode.clock (dv.stack inode.clock) =
          scanDir dv.mended name inode.out.direct.toList inode.clock
            (dv.mended.stack inode.clock) := by
        refine scanDir_mended name (h.mono hlo ?_)
        split <;> simp only [*, Nat.le_refl]
      rw [← hscan]

/-- The read of the inode comes first, then one read for each block that fits. -/
theorem fssoReadFile_inode (dv : Drive) (t : Nat) (fs : FssoFilesystem) (n : UInt32)
    (out : Bytes) (maxSize : UInt32) :
    (fssoReadInode dv t fs n dv.staleInode).clock ≤ (fssoReadFile dv t fs n out maxSize).clock ∧
      (fssoReadFile dv t fs n out maxSize).clock ≤
        (fssoReadInode dv t fs n dv.staleInode).clock + (maxSize.toNat + 1023) / 1024 := by
  rw [fssoReadFile]
  generalize fssoReadInode dv t fs n dv.staleInode = inode
  dsimp only
  split
  · exact ⟨Nat.le_refl _, Nat.le_add_right _ _⟩
  · split
    · exact ⟨Nat.le_refl _, Nat.le_add_right _ _⟩
    · rw [copyBlocks_clock dv maxSize inode.out.direct.toList 0 _ _ _ _
        (by rw [Vector.length_toList]; decide) (by simp)]
      dsimp only
      omega

/-- `fsso_read_file` with reads that succeed. -/
theorem fssoReadFile_mended (n : UInt32) (out : Bytes) (maxSize : UInt32)
    (h : dv.Delivers t (fssoReadFile dv t fs n out maxSize).clock) :
    fssoReadFile dv t fs n out maxSize = fssoReadFile dv.mended t fs n out maxSize := by
  have hfirst := (fssoReadFile_inode dv t fs n out maxSize).1
  have hinode : fssoReadInode dv t fs n dv.staleInode =
      fssoReadInode dv.mended t fs n dv.mended.staleInode :=
    fssoReadInode_mended fs n dv.staleInode (h.mono (Nat.le_refl t) hfirst)
  have hlo := (fssoReadInode_reads dv t fs n dv.staleInode).1
  rw [fssoReadFile] at h ⊢
  rw [fssoReadFile, ← hinode]
  generalize fssoReadInode dv t fs n dv.staleInode = inode at h hlo
  dsimp only
  split
  · rfl
  case isFalse hread =>
    rw [if_neg hread] at h
    split
    · rfl
    case isFalse hfile =>
      rw [if_neg hfile] at h
      rw [copyBlocks_mended maxSize (h.mono hlo (Nat.le_refl _))]
      rfl

end Calls

/-- The superblock of a mount whose read succeeds. -/
theorem fssoMount_mended {dv : Drive} {t : Nat} (fs : FssoFilesystem) (h : dv.fate t = true) :
    fssoMount dv t fs = fssoMount dv.mended t fs := by
  rw [fssoMount, fssoMount, readBlock_mended _ _ h]
  rfl

/-- An image is mounted. -/
theorem fssoMount_image (dv : Drive) (t : Nat) (h : dv.fate t = true) {calls : List AddCall}
    (hreach : Reaches calls dv.disk) (fs : FssoFilesystem) : (fssoMount dv t fs).ret = 0 ∧
      (fssoMount dv t fs).out.superblock.totalInodes = 512 := by
  have hlayout := hreach.inv.layout
  obtain ⟨hret, htotal⟩ := fssoMount_sound dv.mended_sound t fs hlayout.magic
  rw [fssoMount_mended fs h]
  exact ⟨hret, htotal.trans hlayout.totalInodes⟩

end Fsso

namespace Shell

open Ahci ByteStore Fsso Words

/-! ## The shell -/

/-- The kernel on the drive without its faults. -/
def Kernel.mended (K : Kernel) : Kernel := { K with drive := K.drive.mended }

/-- `ls` reads the directory once over. -/
theorem lsBlocks_reads (dv : Drive) (ptrs : List UInt32) (t : Nat) (buffer : Bytes)
    (con : Console) : t ≤ (lsBlocks dv ptrs t buffer con).2 ∧
      (lsBlocks dv ptrs t buffer con).2 ≤ t + ptrs.length := by
  induction ptrs generalizing t buffer con with
  | nil => exact ⟨Nat.le_refl t, Nat.le_refl t⟩
  | cons b rest ih =>
      rw [lsBlocks, List.length_cons]
      split
      · exact ⟨Nat.le_refl t, Nat.le_add_right t _⟩
      · obtain ⟨hlo, hhi⟩ := ih (t + 1) (readBlock dv t b buffer)
          (lsEntries con (readBlock dv t b buffer))
        exact ⟨Nat.le_trans (Nat.le_succ t) hlo, by dsimp only; omega⟩

/-- A listing whose reads succeed. -/
theorem lsBlocks_mended {dv : Drive} {ptrs : List UInt32} {t : Nat} {buffer : Bytes}
    {con : Console} (h : dv.Delivers t (lsBlocks dv ptrs t buffer con).2) :
    lsBlocks dv ptrs t buffer con = lsBlocks dv.mended ptrs t buffer con := by
  induction ptrs generalizing t buffer con with
  | nil => rfl
  | cons b rest ih =>
      rw [lsBlocks] at h ⊢
      rw [lsBlocks]
      split
      · rfl
      case isFalse hb =>
        rw [if_neg hb] at h
        dsimp only at h ⊢
        have hfate := h.first (lsBlocks_reads ..).1
        rw [← readBlock_mended _ _ hfate]
        exact ih (h.mono (Nat.le_succ t) (Nat.le_refl _))

/-- `ls` makes at most 13 reads. -/
theorem cmdLs_reads (dv : Drive) (fs : FssoFilesystem) (t : Nat) (con : Console) :
    t ≤ (cmdLs dv fs t con).2 ∧ (cmdLs dv fs t con).2 ≤ t + 13 := by
  obtain ⟨hlo, hhi⟩ := fssoReadInode_reads dv t fs 0 dv.staleInode
  obtain ⟨hlo', hhi'⟩ := lsBlocks_reads dv
    (fssoReadInode dv t fs 0 dv.staleInode).out.direct.toList
    (fssoReadInode dv t fs 0 dv.staleInode).clock
    (dv.stack (fssoReadInode dv t fs 0 dv.staleInode).clock) con
  rw [Vector.length_toList] at hhi'
  rw [cmdLs]
  have htwelve : fssoDirectBlocks = 12 := rfl
  exact ⟨Nat.le_trans hlo hlo', by omega⟩

/-- `ls` with reads that succeed. -/
theorem cmdLs_mended {dv : Drive} {fs : FssoFilesystem} {t : Nat} {con : Console}
    (h : dv.Delivers t (cmdLs dv fs t con).2) :
    cmdLs dv fs t con = cmdLs dv.mended fs t con := by
  have hlo := (fssoReadInode_reads dv t fs 0 dv.staleInode).1
  rw [cmdLs] at h ⊢
  have hblocks := (lsBlocks_reads dv
    (fssoReadInode dv t fs 0 dv.staleInode).out.direct.toList
    (fssoReadInode dv t fs 0 dv.staleInode).clock
    (dv.stack (fssoReadInode dv t fs 0 dv.staleInode).clock) con).1
  have hinode : fssoReadInode dv t fs 0 dv.staleInode =
      fssoReadInode dv.mended t fs 0 dv.mended.staleInode :=
    fssoReadInode_mended fs 0 dv.staleInode (h.mono (Nat.le_refl t) hblocks)
  rw [cmdLs, ← hinode]
  exact lsBlocks_mended (h.mono hlo (Nat.le_refl _))

/-- `cat` makes at most 18 reads. -/
theorem cmdCat_reads (K : Kernel) (fs : FssoFilesystem) (t : Nat) (con : Console)
    (argv : List (List UInt8)) :
    t ≤ (cmdCat K fs t con argv).2 ∧ (cmdCat K fs t con argv).2 ≤ t + 18 := by
  have hnone : t ≤ t ∧ t ≤ t + 18 := ⟨Nat.le_refl t, Nat.le_add_right t 18⟩
  cases argv with
  | nil => exact hnone
  | cons command args =>
      cases args with
      | nil => exact hnone
      | cons name rest =>
          obtain ⟨hlo, hhi⟩ := fssoReadInode_reads K.drive t fs 0 K.drive.staleInode
          obtain ⟨hlo₁, hhi₁⟩ := fssoFindInDir_inode K.drive t fs 0 name 0
          rw [cmdCat]
          generalize fssoFindInDir K.drive t fs 0 name 0 = found at hlo₁ hhi₁
          obtain ⟨hlo₂, hhi₂⟩ := fssoReadInode_reads K.drive found.clock fs found.out
            K.drive.staleInode
          obtain ⟨hlo₃, hhi₃⟩ :=
            fssoReadFile_inode K.drive found.clock fs found.out (K.fileBuf t) 4096
          have hmax : ((4096 : UInt32).toNat + 1023) / 1024 = 4 := rfl
          rw [hmax] at hhi₃
          dsimp only
          split
          · exact ⟨by dsimp only; omega, by dsimp only; omega⟩
          · split
            · exact ⟨by dsimp only; omega, by dsimp only; omega⟩
            · exact ⟨by dsimp only; omega, by dsimp only; omega⟩

/-- `cat` with reads that succeed. -/
theorem cmdCat_mended {K : Kernel} {fs : FssoFilesystem} {t : Nat} {con : Console}
    {argv : List (List UInt8)} (h : K.drive.Delivers t (cmdCat K fs t con argv).2) :
    cmdCat K fs t con argv = cmdCat K.mended fs t con argv := by
  cases argv with
  | nil => rfl
  | cons command args =>
      cases args with
      | nil => rfl
      | cons name rest =>
          have hlo := (fssoReadInode_reads K.drive t fs 0 K.drive.staleInode).1
          have hlo₁ := (fssoFindInDir_inode K.drive t fs 0 name 0).1
          have hlo₂ : ∀ found : Reply UInt32, found.clock ≤
              (fssoReadFile K.drive found.clock fs found.out (K.fileBuf t) 4096).clock :=
            fun found => Nat.le_trans (fssoReadInode_reads ..).1 (fssoReadFile_inode ..).1
          rw [cmdCat] at h ⊢
          rw [cmdCat]
          dsimp only at h ⊢
          have hfound : fssoFindInDir K.drive t fs 0 name 0 =
              fssoFindInDir K.mended.drive t fs 0 name 0 := by
            refine fssoFindInDir_mended 0 name 0 (h.mono (Nat.le_refl t) ?_)
            split
            · exact Nat.le_refl _
            · split
              · exact hlo₂ _
              · exact hlo₂ _
          rw [← hfound]
          generalize fssoFindInDir K.drive t fs 0 name 0 = found at h hlo₁
          split
          · rfl
          case isFalse hin =>
            rw [if_neg hin] at h
            have hfile : fssoReadFile K.drive found.clock fs found.out (K.fileBuf t) 4096 =
                fssoReadFile K.mended.drive found.clock fs found.out (K.mended.fileBuf t)
                  4096 := by
              refine fssoReadFile_mended found.out (K.fileBuf t) 4096 (h.mono (by omega) ?_)
              split
              · exact Nat.le_refl _
              · exact Nat.le_refl _
            rw [← hfile]

section Session

variable {K : Kernel} {fs : FssoFilesystem}

/-- A line makes at most 18 reads. -/
theorem runLine_reads (K : Kernel) (fs : FssoFilesystem) (t : Nat) (con : Console)
    (line : List UInt8) :
    t ≤ (runLine K fs t con line).2 ∧ (runLine K fs t con line).2 ≤ t + 18 := by
  have hnone : t ≤ t ∧ t ≤ t + 18 := ⟨Nat.le_refl t, Nat.le_add_right t 18⟩
  rw [runLine]
  cases shellParse line shellMaxArgs with
  | nil => exact hnone
  | cons command args =>
      dsimp only
      split
      · exact hnone
      · split
        · exact hnone
        · split
          · obtain ⟨hlo, hhi⟩ := cmdLs_reads K.drive fs t con
            exact ⟨hlo, by omega⟩
          · split
            · exact cmdCat_reads K fs t con _
            · split
              · exact hnone
              · exact hnone

/-- A line whose own reads succeed is answered as on the drive without faults. -/
theorem runLine_mended {t : Nat} {con : Console} {line : List UInt8}
    (h : K.drive.Delivers t (runLine K fs t con line).2) :
    runLine K fs t con line = runLine K.mended fs t con line := by
  rw [runLine] at h ⊢
  rw [runLine]
  cases hwords : shellParse line shellMaxArgs with
  | nil => rfl
  | cons command args =>
      simp only [hwords] at h
      dsimp only
      split
      · rfl
      case isFalse hecho =>
        rw [if_neg hecho] at h
        split
        · rfl
        case isFalse hclear =>
          rw [if_neg hclear] at h
          split
          case isTrue hls =>
            rw [if_pos hls] at h
            exact cmdLs_mended h
          case isFalse hls =>
            rw [if_neg hls] at h
            split
            case isTrue hcat =>
              rw [if_pos hcat] at h
              exact cmdCat_mended h
            case isFalse => rfl

/-- Only the end of a line reads. -/
theorem pressKey_reads (K : Kernel) (fs : FssoFilesystem) (s : State) (scancode : UInt8) :
    s.clock ≤ (pressKey K fs s scancode).clock ∧ (pressKey K fs s scancode).clock ≤
      s.clock + if (readKey s.shiftPressed scancode).1 = newline then 18 else 0 := by
  have hkeep : ∀ n, s.clock ≤ s.clock ∧ s.clock ≤ s.clock + n :=
    fun n => ⟨Nat.le_refl _, Nat.le_add_right _ n⟩
  simp only [pressKey]
  split
  · exact hkeep _
  · split
    · exact runLine_reads ..
    · split
      · split
        · exact hkeep 0
        · exact hkeep 0
      · split
        · exact hkeep 0
        · exact hkeep 0

/-- A key whose reads succeed. -/
theorem pressKey_mended {s : State} {scancode : UInt8}
    (h : K.drive.Delivers s.clock (pressKey K fs s scancode).clock) :
    pressKey K fs s scancode = pressKey K.mended fs s scancode := by
  simp only [pressKey] at h ⊢
  split
  · rfl
  case isFalse hzero =>
    rw [if_neg hzero] at h
    split
    case isTrue hline =>
      rw [if_pos hline] at h
      rw [runLine_mended h]
    case isFalse => rfl

/-- The reads of a session, at most 18 for each line that ends. -/
theorem pressKeys_reads (K : Kernel) (fs : FssoFilesystem) (scancodes : List UInt8) (s : State) :
    s.clock ≤ (scancodes.foldl (pressKey K fs) s).clock ∧
      (scancodes.foldl (pressKey K fs) s).clock ≤
        s.clock + 18 * (readKeys s.shiftPressed scancodes).count newline := by
  induction scancodes generalizing s with
  | nil => exact ⟨Nat.le_refl _, Nat.le_refl _⟩
  | cons scancode rest ih =>
      obtain ⟨hlo, hhi⟩ := pressKey_reads K fs s scancode
      obtain ⟨hlo', hhi'⟩ := ih (pressKey K fs s scancode)
      rw [pressKey_shift] at hhi'
      rw [List.foldl_cons, readKeys, List.count_cons]
      refine ⟨Nat.le_trans hlo hlo', Nat.le_trans hhi' ?_⟩
      by_cases hline : (readKey s.shiftPressed scancode).1 = newline
      · rw [if_pos hline] at hhi
        rw [if_pos (beq_iff_eq.mpr hline)]
        omega
      · rw [if_neg hline] at hhi
        rw [if_neg fun h => hline (beq_iff_eq.mp h)]
        omega

/-- **Run lemma.** -/
theorem pressKeys_mended {scancodes : List UInt8} {s : State}
    (h : K.drive.Delivers s.clock (scancodes.foldl (pressKey K fs) s).clock) :
    scancodes.foldl (pressKey K fs) s = scancodes.foldl (pressKey K.mended fs) s := by
  induction scancodes generalizing s with
  | nil => rw [List.foldl_nil, List.foldl_nil]
  | cons scancode rest ih =>
      rw [List.foldl_cons] at h ⊢
      have hfirst := (pressKey_reads K fs s scancode).1
      have hrest := (pressKeys_reads K fs rest (pressKey K fs s scancode)).1
      have hkey : pressKey K fs s scancode = pressKey K.mended fs s scancode :=
        pressKey_mended (h.mono (Nat.le_refl _) hrest)
      rw [List.foldl_cons, ← hkey]
      exact ih (h.mono hfirst (Nat.le_refl _))

end Session

/-! ## The session -/

/-- The line that has been typed after some keys. -/
def lineSoFar (keys : List UInt8) : List UInt8 :=
  keys.foldl (fun line c => if c = newline then [] else editKey line c) []

/-- The shell after some scancodes, if the file system has been mounted. -/
def Kernel.shell (K : Kernel) (scancodes : List UInt8) : State :=
  shellRun K (fssoMount K.drive 0 K.staleFs).out 1 ⟨0, 40, []⟩ scancodes

/-- The keyboard does not depend on the disk. -/
theorem pressKeys_keyboard (K : Kernel) (fs : FssoFilesystem) (scancodes : List UInt8)
    (s : State) : (scancodes.foldl (pressKey K fs) s).shiftPressed =
        flagAfter s.shiftPressed scancodes ∧
      (scancodes.foldl (pressKey K fs) s).input = (readKeys s.shiftPressed scancodes).foldl
        (fun line c => if c = newline then [] else editKey line c) s.input := by
  induction scancodes generalizing s with
  | nil => exact ⟨rfl, rfl⟩
  | cons scancode rest ih =>
      obtain ⟨hshift, hinput⟩ := ih (pressKey K fs s scancode)
      rw [pressKey_shift] at hshift hinput
      rw [List.foldl_cons, readKeys, List.foldl_cons]
      refine ⟨hshift, hinput.trans ?_⟩
      by_cases hline : (readKey s.shiftPressed scancode).1 = newline
      · rw [if_pos hline]
        have hended : (pressKey K fs s scancode).input = [] := by
          simp only [pressKey, hline]
          rfl
        rw [hended]
      · rw [if_neg hline, pressKey_input K fs s scancode hline]

/-- Whatever the drive does. -/
theorem shell_keyboard (K : Kernel) (scancodes : List UInt8) :
    (K.shell scancodes).shiftPressed = flagAfter false scancodes ∧
      (K.shell scancodes).input = lineSoFar (readKeys false scancodes) :=
  pressKeys_keyboard K _ scancodes ⟨prompt ⟨0, 40, []⟩, [], false, 1⟩

/-- The mount reads once, and every line at most 18 times. -/
theorem shell_reads (K : Kernel) (scancodes : List UInt8) :
    1 ≤ (K.shell scancodes).clock ∧
      (K.shell scancodes).clock ≤ 1 + 18 * (readKeys false scancodes).count newline :=
  pressKeys_reads K _ scancodes ⟨prompt ⟨0, 40, []⟩, [], false, 1⟩

/-- What has been drawn stays drawn. -/
theorem shell_prefix (K : Kernel) (before rest : List UInt8) :
    (K.shell before).con.acts <+: (K.shell (before ++ rest)).con.acts := by
  have hsplit : K.shell (before ++ rest) =
      rest.foldl (pressKey K (fssoMount K.drive 0 K.staleFs).out) (K.shell before) :=
    List.foldl_append
  rw [hsplit]
  exact (pressKeys_after K _ rest (K.shell before)).acts

/-- The session on a drive whose reads have all succeeded. -/
theorem shell_served {K : Kernel} {calls : List AddCall} (hreach : Reaches calls K.drive.disk)
    (hlen : calls.length ≤ 106) {scancodes : List UInt8}
    (hdelivers : K.drive.Delivers 0 (K.shell scancodes).clock) :
    (K.shell scancodes).con =
      (transcript (filesOf calls) scancodes).foldl (Event.apply K.screen.pps) ⟨0, 40, []⟩ := by
  have hfirst := (shell_reads K scancodes).1
  have hmount : K.drive.fate 0 = true := hdelivers.first (Nat.lt_of_lt_of_le Nat.zero_lt_one hfirst)
  have hmended := fssoMount_mended K.staleFs hmount
  obtain ⟨-, htotal⟩ := fssoMount_image K.drive 0 hmount hreach K.staleFs
  have hserved := pressKeys_served (K := K.mended) (hreach.serves hlen) K.drive.mended_sound
    (congrArg Reply.out hmended) (by rw [htotal]; decide) (names_short_of_reaches hreach hlen)
    scancodes ⟨prompt ⟨0, 40, []⟩, [], false, 1⟩
  have hshell : K.shell scancodes = scancodes.foldl
      (pressKey K.mended (fssoMount K.drive 0 K.staleFs).out) ⟨prompt ⟨0, 40, []⟩, [], false, 1⟩ :=
    pressKeys_mended (hdelivers.mono (Nat.zero_le _) (Nat.le_refl _))
  rw [hshell, hserved, transcript, List.foldl_append, putAll_apply]
  rfl

/-- **Correct up to the first fault.**  If all reads made by the end of some keys have
succeeded, the kernel has drawn by then what the files determine, and goes on
from there whatever the drive does.  The line that is being typed follows the keys alone, and
no entered line costs more than 18 reads. -/
theorem shell_until_fault {K : Kernel} {calls : List AddCall} (hahci : (ahciInit K.hba).1 = 0)
    (hreach : Reaches calls K.drive.disk) (hlen : calls.length ≤ 106) {before : List UInt8}
    (hdelivers : K.drive.Delivers 0 (K.shell before).clock) (rest : List UInt8) :
    (initialDrawing K).1 ++ ((transcript (filesOf calls) before).foldl
        (Event.apply K.screen.pps) ⟨0, 40, []⟩).acts <+: kernelMain K (before ++ rest) ∧
      kernelMain K (before ++ rest) =
        (initialDrawing K).1 ++ (K.shell (before ++ rest)).con.acts ∧
      (K.shell (before ++ rest)).input = lineSoFar (readKeys false (before ++ rest)) ∧
      (K.shell (before ++ rest)).clock ≤
        1 + 18 * (readKeys false (before ++ rest)).count newline := by
  have hfirst := (shell_reads K before).1
  have hmount : K.drive.fate 0 = true := hdelivers.first (Nat.lt_of_lt_of_le Nat.zero_lt_one hfirst)
  obtain ⟨hret, -⟩ := fssoMount_image K.drive 0 hmount hreach K.staleFs
  have hentered : (initialDrawing K).2 = some ((fssoMount K.drive 0 K.staleFs).out, 1) := by
    rw [initialDrawing, if_pos hahci]
    simp only [hret, if_true]
    rw [fssoMount_mended K.staleFs hmount, fssoMount_of_ok K.staleFs rfl]
    split <;> rfl
  have hdrawn : kernelMain K (before ++ rest) =
      (initialDrawing K).1 ++ (K.shell (before ++ rest)).con.acts := by
    rw [kernelMain, shellActs, hentered]
    rfl
  refine ⟨?_, hdrawn, (shell_keyboard K _).2, (shell_reads K _).2⟩
  rw [hdrawn, List.prefix_append_right_inj, ← shell_served hreach hlen hdelivers]
  exact shell_prefix K before rest

/-- A drive with a file that delivers three blocks and then fails, at first in the
middle of a block and from there on at once. -/
def failingKernel : Kernel :=
  { diskKernel helloDisk with
    drive := ⟨{ zeroMemory with residue := fun t _ i =>
        if t = 3 ∧ i < 512 then helloDisk (1024 * 3 + i) else 0xFF },
      helloDisk, fun t => decide (t < 3)⟩ }

/-- The scancodes of `ls` and the end of the line. -/
def lsCodes : List UInt8 := [0x26, 0x1F, 0x1C]

/-- Only the last key of `ls` reads. -/
theorem lsCodes_reads (K : Kernel) (fs : FssoFilesystem) (con : Console) (t : Nat) :
    ∃ con', (lsCodes.foldl (pressKey K fs) ⟨con, [], false, t⟩).clock =
      (cmdLs K.drive fs t con').2 := ⟨_, rfl⟩

/-- On an image `ls` reads the inode and the block of the root directory. -/
theorem cmdLs_clock {dv : Drive} {fs : FssoFilesystem} (h : Layout dv.disk)
    (htotal : fs.superblock.totalInodes = 512) {t : Nat} (hfate : dv.fate t = true)
    (con : Console) : (cmdLs dv fs t con).2 = t + 2 := by
  have hread := fssoReadInode_of_ok (t := t) dv.staleInode (n := 0) (by rw [htotal]; decide) hfate
  rw [h.rootInode] at hread
  have hptrs : (inodeAt mkfssoFormat 3072).direct.toList = 11 :: 0 :: List.replicate 10 0 := by
    decide
  rw [cmdLs, hread]
  dsimp only
  rw [hptrs, lsBlocks, if_neg (by decide), lsBlocks, if_pos rfl]

/-- The first `ls` is answered, and the second runs into the fault. -/
theorem shell_until_fault_ls :
    failingKernel.drive.fate (failingKernel.shell lsCodes).clock = false ∧
    (initialDrawing failingKernel).1 ++ ((transcript (filesOf [helloCall]) lsCodes).foldl
      (Event.apply 1024) ⟨0, 40, []⟩).acts <+: kernelMain failingKernel (lsCodes ++ lsCodes) := by
  have hreach : Reaches [helloCall] failingKernel.drive.disk :=
    Reaches.call Reaches.format helloCall_run
  obtain ⟨-, htotal⟩ := fssoMount_image failingKernel.drive 0 (by decide) hreach
    failingKernel.staleFs
  obtain ⟨con, hclock⟩ := lsCodes_reads failingKernel
    (fssoMount failingKernel.drive 0 failingKernel.staleFs).out (prompt ⟨0, 40, []⟩) 1
  have hthree : (failingKernel.shell lsCodes).clock = 3 :=
    hclock.trans (cmdLs_clock hreach.inv.layout htotal (by decide) con)
  refine ⟨?_, (shell_until_fault (by decide) hreach (by decide) ?_ lsCodes).1⟩
  · rw [hthree]
    decide
  · intro t _ ht
    rw [hthree] at ht
    exact decide_eq_true ht

end Shell
