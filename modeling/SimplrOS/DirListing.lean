import SimplrOS.RootNames
import SimplrOS.Shell

/-!
# What `ls` shows

`cmd_ls` walks over the root directory by itself, without `fsso_find_in_dir`: it
drops the result of the inode read, does not look at the type, and prints each name
up to its NUL, wherever that is.  Where the names in use end inside their fields the
two see the same directory: `ls` prints one line for each entry in use, in the order
of the scan, and the names it prints are those that are found.
-/

namespace Shell

open ByteStore Fsso

/-- One line of the listing. -/
def printLine (con : Console) (name : List UInt8) : Console :=
  shellPutchar (shellPrint con name) newline

/-- The names that the slot loop of `cmd_ls` passes to `shell_print`. -/
def lsEntryNames (buffer : Bytes) : List (List UInt8) :=
  (List.range entriesPerBlock).filterMap fun j =>
    if word32 buffer (entryAddr 0 j) = 0 then none
    else some (cString buffer (entryAddr 0 j + 4) (2 ^ 31))

/-- The names that the block loop of `cmd_ls` passes to `shell_print`. -/
def lsBlockNames (dv : Drive) : List UInt32 → Nat → Bytes → List (List UInt8)
  | [], _, _ => []
  | b :: rest, t, buffer =>
      if b = 0 then []
      else
        let buffer := readBlock dv t b buffer
        lsEntryNames buffer ++ lsBlockNames dv rest (t + 1) buffer

/-- The names that one `cmd_ls` passes to `shell_print`, in order. -/
def cmdLsNames (dv : Drive) (fs : FssoFilesystem) (t : Nat) : List (List UInt8) :=
  let root := fssoReadInode dv t fs 0 dv.staleInode
  lsBlockNames dv root.out.direct.toList root.clock (dv.stack root.clock)

/-! ## The lines of the listing -/

/-- A block is listed name by name. -/
theorem lsEntries_eq (con : Console) (buffer : Bytes) :
    lsEntries con buffer = (lsEntryNames buffer).foldl printLine con := by
  rw [lsEntries, lsEntryNames, List.foldl_filterMap]
  congr 1
  funext con j
  split <;> rfl

/-- The blocks are listed name by name. -/
theorem lsBlocks_eq (dv : Drive) (ptrs : List UInt32) (t : Nat) (buffer : Bytes)
    (con : Console) :
    (lsBlocks dv ptrs t buffer con).1 = (lsBlockNames dv ptrs t buffer).foldl printLine con := by
  induction ptrs generalizing t buffer con with
  | nil => rfl
  | cons b rest ih =>
      unfold lsBlocks lsBlockNames
      split
      · rfl
      · dsimp only
        rw [ih, lsEntries_eq, List.foldl_append]

/-- On any drive, what `cmd_ls` prints is one line for each name it passes on. -/
theorem cmdLs_eq (dv : Drive) (fs : FssoFilesystem) (t : Nat) (con : Console) :
    (cmdLs dv fs t con).1 = (cmdLsNames dv fs t).foldl printLine con :=
  lsBlocks_eq dv _ _ _ con

/-! ## The directory behind them -/

theorem cString_eq_charsAt (mem : Bytes) (a k : Nat) : cString mem a k = charsAt mem a k := by
  induction k generalizing a with
  | zero => rfl
  | succ k ih => rw [cString, charsAt, ih]

/-- The names printed are those of the entries in use. -/
theorem lsEntryNames_eq (buffer : Bytes) :
    lsEntryNames buffer = (blockEntries (2 ^ 31) buffer 0).map RootEntry.name := by
  rw [blockEntries, List.map_filterMap, lsEntryNames]
  congr 1
  funext j
  rw [slotEntry, cString_eq_charsAt]
  split <;> rfl

/-- With all reads successful the names printed are those on the disk. -/
theorem lsBlockNames_sound {dv : Drive} (hsound : dv.Sound) (ptrs : List UInt32) (t : Nat)
    (buffer : Bytes) :
    lsBlockNames dv ptrs t buffer = ((leadBlocks ptrs).flatMap fun b =>
      blockEntries (2 ^ 31) (filledFrom dv.disk buffer b) 0).map RootEntry.name := by
  induction ptrs generalizing t buffer with
  | nil => rfl
  | cons b rest ih =>
      unfold lsBlockNames
      by_cases hb : b = 0
      · simp [leadBlocks, hb]
      · have hlead : leadBlocks (b :: rest) = b :: leadBlocks rest := by simp [leadBlocks, hb]
        rw [if_neg hb, hlead, List.flatMap_cons, List.map_append, readBlock_sound hsound]
        dsimp only
        rw [lsEntryNames_eq, ih]
        simp only [filledFrom_filledFrom]

/-- The names that `cmd_ls` prints are those of the root's entries in use. -/
theorem cmdLsNames_sound {dv : Drive} (hsound : dv.Sound) {fs : FssoFilesystem}
    (htotal : 0 < fs.superblock.totalInodes)
    (hends : ∀ e ∈ dirEntries dv.disk 0, e.name.length ≤ 255) (t : Nat) :
    cmdLsNames dv fs t = (dirEntries dv.disk 0).map RootEntry.name := by
  have hread := fssoReadInode_of_ok dv.staleInode htotal (hsound t)
  have hnames := lsBlockNames_sound hsound (inodePtrs dv.disk 0) (t + 1) (dv.stack (t + 1))
  rw [← runOnEntries, runOnEntries_of_ends _ hends (by decide)] at hnames
  rw [cmdLsNames, hread]
  exact hnames

/-- Every entry in use in the scanned blocks of the root has a NUL in its name field. -/
def NamesEnd (disk : Bytes) : Prop :=
  ∀ b ∈ leadBlocks (inodePtrs disk 0), ∀ j, j < entriesPerBlock →
    word32 disk (entryAddr (1024 * b.toNat) j) ≠ 0 →
    ∃ k, k < 256 ∧ disk (entryAddr (1024 * b.toNat) j + 4 + k) = 0

/-- Names that end inside their field have at most 255 characters. -/
theorem NamesEnd.length_le {disk : Bytes} (h : NamesEnd disk) :
    ∀ e ∈ dirEntries disk 0, e.name.length ≤ 255 := by
  intro e he
  obtain ⟨b, hb, hblock⟩ := List.mem_flatMap.mp he
  obtain ⟨j, hj, hslot⟩ := List.mem_filterMap.mp hblock
  unfold slotEntry at hslot
  split at hslot
  · cases hslot
  · rename_i hused
    cases hslot
    obtain ⟨k, hk, hnul⟩ := h b hb j (List.mem_range.mp hj) hused
    exact Nat.le_of_lt_succ (length_charsAt_lt hk hnul)

/-- **`ls` and lookup.**  The names printed are those found, and the listing has one line
for each entry in use, in the order of the scan. -/
theorem cmdLs_lists (dv : Drive) (hsound : dv.Sound) (fs : FssoFilesystem)
    (htotal : 0 < fs.superblock.totalInodes)
    (hroot : (inodeAt dv.disk (readerInodeAddr 0)).type = fssoTypeDir) (hends : NamesEnd dv.disk)
    (t : Nat) (con : Console) :
    (∀ s, (∀ c ∈ s, c ≠ 0) → s.length ≤ 255 → ∀ t' out,
      (s ∈ cmdLsNames dv fs t ↔ (fssoFindInDir dv t' fs 0 s out).ret = 0)) ∧
    cmdLsNames dv fs t = (dirEntries dv.disk 0).map RootEntry.name ∧
    (cmdLs dv fs t con).1 = ((dirEntries dv.disk 0).map RootEntry.name).foldl printLine con := by
  have hnames := cmdLsNames_sound hsound htotal hends.length_le t
  refine ⟨fun s hnul hlen t' out => ?_, hnames, hnames ▸ cmdLs_eq dv fs t con⟩
  have hanswer := fssoFindInDir_leads hnul hlen hsound t' fs 0 out
  rw [leads_singleton, if_pos ⟨htotal, hroot⟩] at hanswer
  rw [hnames, List.mem_map]
  cases hlook : lookup (dirEntries dv.disk 0) s with
  | none =>
      rw [hlook] at hanswer
      have hnone := lookup_eq_none.mp hlook
      rw [cName_of_nulFree hnul] at hnone
      exact iff_of_false (fun hmem => by
        obtain ⟨e, he, hname⟩ := hmem
        exact hnone e he hname) hanswer
  | some m =>
      rw [hlook] at hanswer
      obtain ⟨e, he, hname, _⟩ := lookup_mem hlook
      rw [cName_of_nulFree hnul] at hname
      exact iff_of_true ⟨e, he, hname⟩ hanswer.1

/-- On the images of `mkfsso` every name ends. -/
theorem namesEnd_of_lists {disk : Bytes} (h : Layout disk) {entries : List RootEntry}
    (hlists : Lists disk 11264 entries) : NamesEnd disk := by
  intro b hb j hj hused
  rw [h.leadBlocks_root, List.mem_singleton] at hb
  rw [hb] at hused ⊢
  have hentry : j < entries.length := by
    apply Classical.byContradiction
    intro hfree
    exact hused (hlists.free j (Nat.not_lt.mp hfree) hj)
  have hlen := (hlists.string _ (List.getElem_mem hentry)).2
  exact ⟨entries[j].name.length, Nat.lt_succ_of_le hlen, (hlists.name j hentry).nul⟩

/-- The listing of the image with one file. -/
theorem cmdLs_lists_hello : cmdLsNames helloDrive formattedFs 0 = [helloCall.name] := by
  have hreach := helloDisk_stored.1
  have hlists := hreach.lists (by decide)
  have hends : NamesEnd helloDrive.disk := namesEnd_of_lists hreach.inv.layout hlists
  have hlisting := (cmdLs_lists helloDrive (fun _ => rfl) formattedFs (by decide) helloDisk_root
    hends 0 ⟨0, 0, []⟩).2.1
  have hentries : dirEntries helloDrive.disk 0 = rootEntries [helloCall] :=
    Lists.dirEntries_eq hreach.inv.layout hlists
  rw [hlisting, hentries]
  decide

end Shell
