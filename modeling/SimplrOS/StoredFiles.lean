import SimplrOS.ContiguousImage
import SimplrOS.FileRead

/-!
# The file system as a list of files

What the image writer and the reader are for together: a list of at most three
named files in the order they were added.  `addFile` appends to it, a name means
the first file that has it, and a file can be read from its beginning.

The reader knows nothing of a file's size, so the content of a file is that of its
blocks, the last one filled up with zeros (`fileOf`).  A name is cut to 255
characters when it is stored and never when it is looked up.
-/

namespace Fsso

open ByteStore

/-! ## The list -/

/-- A file by name and content. -/
structure StoredFile where
  name : List UInt8
  content : List UInt8

/-- Adding a file to the list. -/
def addFile (files : List StoredFile) (f : StoredFile) : Int × List StoredFile :=
  if files.length < entriesPerBlock then (0, files ++ [f]) else (-1, files)

/-- The file that a name means. -/
def namedFile (files : List StoredFile) (name : List UInt8) : Option StoredFile :=
  files.find? fun f => f.name = cName name

/-- The file that a call adds. -/
def fileOf (c : AddCall) : StoredFile where
  name := storedName c.name
  content := (List.range (1024 * blocksNeeded c.size)).map fun i =>
    if i < c.size.toNat then c.data i else 0

/-- The files that a run has added. -/
def filesOf (calls : List AddCall) : List StoredFile :=
  (calls.reverse.take entriesPerBlock).map fileOf

/-- On every drive that delivers `disk`, the file system is mounted and its calls
answer for `files`. -/
structure Serves (disk : Bytes) (files : List StoredFile) : Prop where
  mounts : ∀ dv : Drive, dv.Sound → dv.disk = disk → ∀ t fs, (fssoMount dv t fs).ret = 0
  listed : (dirEntries disk 0).map RootEntry.name = files.map StoredFile.name
  missing : ∀ dv : Drive, dv.Sound → dv.disk = disk → ∀ t fs t' name out,
    namedFile files name = none →
    (fssoFindInDir dv t' (fssoMount dv t fs).out 0 name out).ret = -3
  found : ∀ dv : Drive, dv.Sound → dv.disk = disk → ∀ t fs t' name out f,
    namedFile files name = some f →
    (fssoFindInDir dv t' (fssoMount dv t fs).out 0 name out).ret = 0 ∧
    ∀ t'' buffer max, 0 ≤ (fssoReadFile dv t'' (fssoMount dv t fs).out
        (fssoFindInDir dv t' (fssoMount dv t fs).out 0 name out).out buffer max).ret ∧
      readBytes (fssoReadFile dv t'' (fssoMount dv t fs).out
        (fssoFindInDir dv t' (fssoMount dv t fs).out 0 name out).out buffer max) =
          f.content.take max.toNat

/-! ## The writer appends -/

theorem length_filesOf (calls : List AddCall) : (filesOf calls).length = min 3 calls.length := by
  rw [filesOf, List.length_map, List.length_take, List.length_reverse]
  rfl

theorem filesOf_cons (c : AddCall) (calls : List AddCall) :
    filesOf (c :: calls) = (addFile (filesOf calls) (fileOf c)).2 := by
  have hthree : entriesPerBlock = 3 := rfl
  rw [addFile, length_filesOf, filesOf, List.reverse_cons, List.take_append, hthree,
    List.length_reverse]
  by_cases hm : calls.length < 3
  · rw [if_pos (by omega), List.take_of_length_le (l := [c]) (by rw [List.length_singleton]; omega),
      List.map_append]
    rfl
  · rw [if_neg (by omega), Nat.sub_eq_zero_of_le (by omega), List.take_zero, List.append_nil]
    rfl

/-- A call returns what appending returns. -/
theorem Reaches.ret_eq {calls : List AddCall} {disk disk' : Bytes} {c : AddCall} {r : Int}
    (h : Reaches calls disk) (hrun : c.run disk = some (r, disk')) :
    r = (addFile (filesOf calls) (fileOf c)).1 := by
  have hthree : entriesPerBlock = 3 := rfl
  rw [addFile, length_filesOf, hthree]
  by_cases hm : calls.length < 3
  · rw [if_pos (by omega)]
    exact (h.succeeds_iff hrun).mpr hm
  · rw [if_neg (by omega)]
    exact (h.inv.run_late (by omega) hrun).1

/-! ## The reader looks up -/

theorem lookup_mapIdx (l : List AddCall) (k : Nat) (name : List UInt8) :
    lookup (l.mapIdx fun s c => ⟨UInt32.ofNat (k + s + 1), storedName c.name⟩) name =
      (l.findIdx? fun c => storedName c.name = cName name).map fun s =>
        UInt32.ofNat (k + s + 1) := by
  induction l generalizing k with
  | nil => rfl
  | cons c rest ih =>
      have hshift : ∀ s, k + (s + 1) + 1 = k + 1 + s + 1 := fun s => by omega
      rw [List.mapIdx_cons, lookup_cons, List.findIdx?_cons]
      by_cases hname : storedName c.name = cName name
      · simp [hname]
      · simp only [hshift]
        rw [if_neg hname, ih (k + 1)]
        simp only [hname, decide_false, Bool.false_eq_true, if_false, Option.map_map]
        congr 1
        funext s
        exact congrArg UInt32.ofNat (hshift s).symm

/-- Call number `k + 1` of a run, and the calls before it. -/
theorem exists_call_getElem {calls : List AddCall} {k : Nat} (hk : k < calls.reverse.length) :
    ∃ earlier, calls.reverse[k] :: earlier <:+ calls ∧ earlier.length = k := by
  have hlength : calls.reverse.length = calls.length := List.length_reverse
  obtain ⟨c, earlier, ⟨later, hsplit⟩, hlen⟩ :=
    exists_call (show 1 ≤ k + 1 by omega) (show k + 1 ≤ calls.length by omega)
  have hk' : earlier.length = k := by omega
  have hc : calls.reverse[k] = c := by
    subst hsplit
    simp [hk']
  exact ⟨earlier, ⟨later, by rw [hc, hsplit]⟩, hk'⟩

/-- Lookup by inode and by file. -/
theorem lookup_cases (calls : List AddCall) (name : List UInt8) :
    (lookup (rootEntries calls) name = none ∧ namedFile (filesOf calls) name = none) ∨
    ∃ c earlier, c :: earlier <:+ calls ∧ earlier.length < 3 ∧
      lookup (rootEntries calls) name = some (UInt32.ofNat (earlier.length + 1)) ∧
      namedFile (filesOf calls) name = some (fileOf c) := by
  have hlookup := lookup_mapIdx (calls.reverse.take entriesPerBlock) 0 name
  simp only [Nat.zero_add] at hlookup
  have hentries : rootEntries calls = (calls.reverse.take entriesPerBlock).mapIdx fun s c =>
      ⟨UInt32.ofNat (s + 1), storedName c.name⟩ := rfl
  rw [← hentries] at hlookup
  have hnamed : namedFile (filesOf calls) name = ((calls.reverse.take entriesPerBlock).find?
      fun c => storedName c.name = cName name).map fileOf := by
    rw [namedFile, filesOf, List.find?_map]
    rfl
  rw [hlookup, hnamed]
  cases hidx : (calls.reverse.take entriesPerBlock).findIdx? fun c =>
      storedName c.name = cName name with
  | none =>
      left
      rw [List.findIdx?_eq_none_iff] at hidx
      refine ⟨rfl, ?_⟩
      rw [Option.map_eq_none_iff, List.find?_eq_none]
      intro c hc
      simpa using hidx c hc
  | some s =>
      right
      rw [List.findIdx?_eq_some_iff_getElem] at hidx
      obtain ⟨hs, hname, hbefore⟩ := hidx
      have hbounds : s < min 3 calls.reverse.length := by
        rw [List.length_take] at hs
        exact hs
      have hs' : s < calls.reverse.length := by omega
      have hget : (calls.reverse.take entriesPerBlock)[s] = calls.reverse[s] := List.getElem_take
      obtain ⟨earlier, hsuffix, hlen⟩ := exists_call_getElem hs'
      refine ⟨calls.reverse[s], earlier, hsuffix, by omega, by rw [hlen]; rfl, ?_⟩
      rw [Option.map_eq_some_iff]
      refine ⟨calls.reverse[s], ?_, rfl⟩
      rw [List.find?_eq_some_iff_getElem]
      refine ⟨by rw [← hget]; exact hname, s, hs, hget, fun j hj => ?_⟩
      simpa using hbefore j hj

/-! ## The reader reads -/

section Read

variable {calls earlier : List AddCall} {disk : Bytes} {c : AddCall}

/-- The blocks of a file, one after the other. -/
theorem Contiguous.leadBlocks_eq (h : Contiguous calls disk) (hsuffix : c :: earlier <:+ calls) :
    leadBlocks (inodeAt disk (inodeAddr (earlier.length + 1))).direct.toList =
      (List.range' (nextBlock earlier) (blocksNeeded c.size)).map UInt32.ofNat := by
  obtain ⟨hneeded, hend⟩ := h.fits c earlier hsuffix
  have hlo := (nextBlock_bounds earlier).1
  have hhi := (nextBlock_bounds (c :: earlier)).2
  rw [h.records c earlier hsuffix]
  apply leadBlocks_of_prefix
  · simpa [fileRecord] using hneeded
  · intro b hb
    obtain ⟨k, hk, rfl⟩ := List.mem_map.mp hb
    obtain ⟨hk1, hk2⟩ := List.mem_range'_1.mp hk
    exact ofNat_ne_zero (by omega) (by omega)
  · intro j hj
    simp [fileRecord]

theorem Contiguous.fileByte_eq (h : Contiguous calls disk) (hsuffix : c :: earlier <:+ calls)
    {i : Nat} (hi : i < 1024 * blocksNeeded c.size) :
    fileByte disk (inodeAt disk (inodeAddr (earlier.length + 1))).direct.toList i =
      if i < c.size.toNat then c.data i else 0 := by
  obtain ⟨hneeded, hend⟩ := h.fits c earlier hsuffix
  have hhi := (nextBlock_bounds (c :: earlier)).2
  have hk : i / 1024 < blocksNeeded c.size := by omega
  have hptr : (inodeAt disk (inodeAddr (earlier.length + 1))).direct.toList.getD (i / 1024) 0 =
      UInt32.ofNat (nextBlock earlier + i / 1024) := by
    have hin : i / 1024 < 12 := by omega
    rw [h.records c earlier hsuffix]
    simp [fileRecord, hin, hk]
  have hplace : 1024 * (nextBlock earlier + i / 1024) + i % 1024 =
      1024 * nextBlock earlier + i := by omega
  rw [fileByte, hptr, ofNat_toNat_of_lt (by omega), hplace]
  exact h.data c earlier hsuffix i hi

/-- Reading the file of an early call. -/
theorem Contiguous.read (h : Contiguous calls disk) (hsuffix : c :: earlier <:+ calls)
    (hearly : earlier.length < 3) {dv : Drive} (hsound : dv.Sound) (hdisk : dv.disk = disk)
    {fs : FssoFilesystem} (htotal : fs.superblock.totalInodes = 512) (t : Nat) (buffer : Bytes)
    (max : UInt32) :
    0 ≤ (fssoReadFile dv t fs (UInt32.ofNat (earlier.length + 1)) buffer max).ret ∧
      readBytes (fssoReadFile dv t fs (UInt32.ofNat (earlier.length + 1)) buffer max) =
        (fileOf c).content.take max.toNat := by
  have hnat : (UInt32.ofNat (earlier.length + 1)).toNat = earlier.length + 1 :=
    ofNat_toNat_of_lt (by omega)
  have haddr : readerInodeAddr (UInt32.ofNat (earlier.length + 1)) =
      inodeAddr (earlier.length + 1) := by
    rw [readerInodeAddr_eq, inodeAddr_eq, hnat]
    omega
  have hn : UInt32.ofNat (earlier.length + 1) < fs.superblock.totalInodes := by
    rw [htotal, UInt32.lt_iff_toNat_lt, hnat]
    simp only [UInt32.reduceToNat]
    omega
  have hfile : (inodeAt dv.disk (readerInodeAddr (UInt32.ofNat (earlier.length + 1)))).type =
      fssoTypeFile := by
    rw [haddr, hdisk, h.records c earlier hsuffix]
    rfl
  have hread := fssoReadFile_sound hsound hn (t := t) buffer max hfile
  dsimp only at hread
  rw [haddr, hdisk, h.leadBlocks_eq hsuffix, List.length_map, List.length_range'] at hread
  obtain ⟨hret, hbytes⟩ := hread
  refine ⟨by omega, ?_⟩
  rw [readBytes, hret, Int.toNat_natCast]
  apply List.ext_getElem
  · simp only [List.length_map, List.length_range, List.length_take, fileOf]
    omega
  · intro i hi _
    rw [List.length_map, List.length_range] at hi
    rw [List.getElem_map, List.getElem_range, hbytes i, if_pos hi,
      h.fileByte_eq hsuffix (by omega)]
    simp [fileOf]

end Read

theorem Reaches.serves {calls : List AddCall} {disk : Bytes} (h : Reaches calls disk)
    (hlen : calls.length ≤ 106) : Serves disk (filesOf calls) := by
  have hlayout := h.inv.layout
  have hlists := h.lists hlen
  have hmount : ∀ dv : Drive, dv.Sound → dv.disk = disk → ∀ t fs, (fssoMount dv t fs).ret = 0 ∧
      (fssoMount dv t fs).out.superblock.totalInodes = 512 := by
    intro dv hsound hdisk t fs
    obtain ⟨hret, htotal⟩ := fssoMount_sound hsound t fs (by rw [hdisk]; exact hlayout.magic)
    refine ⟨hret, ?_⟩
    rw [htotal, hdisk]
    exact hlayout.totalInodes
  have hmiss : ∀ dv : Drive, dv.Sound → dv.disk = disk → ∀ t fs t' name out,
      lookup (rootEntries calls) name = none →
      fssoFindInDir dv t' (fssoMount dv t fs).out 0 name out = ⟨-3, out, t' + 2⟩ := by
    intro dv hsound hdisk t fs t' name out hnone
    subst hdisk
    rw [fssoFindInDir_root hsound hlayout hlists (hmount dv hsound rfl t fs).2, hnone]
  have hhit : ∀ dv : Drive, dv.Sound → dv.disk = disk → ∀ t fs t' name out m,
      lookup (rootEntries calls) name = some m →
      fssoFindInDir dv t' (fssoMount dv t fs).out 0 name out = ⟨0, m, t' + 2⟩ := by
    intro dv hsound hdisk t fs t' name out m hsome
    subst hdisk
    rw [fssoFindInDir_root hsound hlayout hlists (hmount dv hsound rfl t fs).2, hsome]
  refine ⟨fun dv hsound hdisk t fs => (hmount dv hsound hdisk t fs).1, ?_, ?_, ?_⟩
  · rw [hlists.dirEntries_eq hlayout]
    apply List.ext_getElem
    · simp [rootEntries, filesOf]
    · intro s _ _
      simp [rootEntries, filesOf, fileOf]
  · intro dv hsound hdisk t fs t' name out hnone
    obtain ⟨hlook, _⟩ | ⟨c, earlier, _, _, _, hsome⟩ := lookup_cases calls name
    · rw [hmiss dv hsound hdisk t fs t' name out hlook]
    · rw [hnone] at hsome
      cases hsome
  · intro dv hsound hdisk t fs t' name out f hsome
    obtain ⟨_, hnone⟩ | ⟨c, earlier, hsuffix, hearly, hlook, hnamed⟩ := lookup_cases calls name
    · rw [hsome] at hnone
      cases hnone
    · rw [hsome] at hnamed
      cases hnamed
      rw [hhit dv hsound hdisk t fs t' name out _ hlook]
      exact ⟨rfl, fun t'' buffer max => (h.contiguous hlen).read hsuffix hearly hsound hdisk
        (hmount dv hsound hdisk t fs).2 t'' buffer max⟩

/-- **The file system is a list of files.**  As long as the inode table keeps to its
blocks, the image serves the files that were added, and a further call appends. -/
theorem image_serves {calls : List AddCall} {disk : Bytes} (h : Reaches calls disk)
    (hlen : calls.length ≤ 106) :
    Serves disk (filesOf calls) ∧
      ∀ c r disk', AddCall.run c disk = some (r, disk') →
        (r, filesOf (c :: calls)) = addFile (filesOf calls) (fileOf c) :=
  ⟨h.serves hlen, fun c _ _ hrun => Prod.ext (h.ret_eq hrun) (filesOf_cons c calls)⟩

theorem image_serves_hello :
    Serves helloDisk (filesOf [helloCall]) ∧
      ∀ c r disk', AddCall.run c helloDisk = some (r, disk') →
        (r, filesOf [c, helloCall]) = addFile (filesOf [helloCall]) (fileOf c) :=
  image_serves (Reaches.call Reaches.format helloCall_run) (by decide)

end Fsso
