import SimplrOS.CommandLine
import SimplrOS.Lookup

/-!
# Printing a stored file

`cmd_cat` reads a file into a buffer of 4096 bytes and prints what it got, while
the writer accepts files of up to 12 blocks.  What is cut off is not reported.
`catText` is the sequence of characters that `cmd_cat` hands to `shell_putchar`.

A run may go on after the file is added.  The first 106 calls keep the file and
its entry; what the size rules out is ruled out for runs of any length, since no
output is longer than the buffer and a newline.
-/

namespace Shell

open ByteStore Fsso

/-- The characters `cmd_cat` sends. -/
def catText (K : Kernel) (fs : FssoFilesystem) (t : Nat) (argv : List (List UInt8)) : List UInt8 :=
  match argv with
  | _ :: name :: _ =>
      let found := fssoFindInDir K.drive t fs 0 name 0
      if found.ret ≠ 0 then ascii "File not found: " ++ name ++ [newline]
      else
        let file := fssoReadFile K.drive found.clock fs found.out (K.fileBuf t) 4096
        if file.ret < 0 then ascii "Error reading file\n"
        else (List.range file.ret.toNat).map file.out ++ [newline]
  | _ => ascii "Usage: cat <filename>\n"

/-- The command line that prints `name`. -/
def catLine (name : List UInt8) : List UInt8 := ascii "cat " ++ name

/-- The bytes of the file that a call adds. -/
def fileText (c : AddCall) : List UInt8 := (List.range c.size.toNat).map c.data

/-- The files that are printed whole: they fit the buffer, or miss it by one
character that is the newline printed at the end anyway.  `cat` with an empty name
prints its usage. -/
def CatFits (c : AddCall) : Prop :=
  if c.name = [] then fileText c <+: ascii "Usage: cat <filename>\n"
  else c.size.toNat ≤ 4096 ∨ (c.size.toNat = 4097 ∧ c.data 4096 = newline)

/-- On `final` the file in inode `n` and root slot `s` is as on `disk`, and so are
the root slots before its own. -/
structure Unharmed (disk final : Bytes) (n s : Nat) : Prop where
  file : FileKept disk final n s
  before : ∀ k, k < s → SameOn final disk (entryAddr (rootBase disk) k) dirEntrySize

/-! ## The command line -/

theorem shellPrint_append (con : Console) (s s' : List UInt8) :
    shellPrint con (s ++ s') = shellPrint (shellPrint con s) s' :=
  List.foldl_append

theorem shellPrint_singleton (con : Console) (c : UInt8) :
    shellPrint con [c] = shellPutchar con c := rfl

/-- `cmd_cat` prints `catText`. -/
theorem cmdCat_eq (K : Kernel) (fs : FssoFilesystem) (t : Nat) (con : Console)
    (argv : List (List UInt8)) :
    (cmdCat K fs t con argv).1 = shellPrint con (catText K fs t argv) := by
  rcases argv with _ | ⟨command, _ | ⟨name, rest⟩⟩
  · rfl
  · rfl
  · simp only [cmdCat, catText]
    split
    · rw [shellPrint_append, shellPrint_append, shellPrint_singleton]
    · split
      · rfl
      · rw [shellPrint_append, shellPrint_singleton]

/-- The words of the line are the command and the name, unless the name is empty. -/
theorem shellParse_catLine {name : List UInt8} (hspace : space ∉ name) :
    shellParse (catLine name) shellMaxArgs =
      if name = [] then [ascii "cat"] else [ascii "cat", name] := by
  have hline : catLine name = ascii "cat" ++ space :: name := by simp [catLine, ascii, space]
  have hcat : ascii "cat" ≠ [] := by simp [ascii]
  have hfree : space ∉ ascii "cat" := by simp [ascii, space]
  rw [shellParse_eq, hline, Words.words_append hcat hfree]
  by_cases hname : name = []
  · rw [if_pos hname, hname, Words.words_nil]
    rfl
  · rw [if_neg hname, Words.words_run hname hspace]
    rfl

/-- **The command line of `cat`.** -/
theorem runLine_catLine (K : Kernel) (fs : FssoFilesystem) (t : Nat) (con : Console)
    {name : List UInt8} (hspace : space ∉ name) :
    (runLine K fs t con (catLine name)).1 =
      shellPrint con (catText K fs t (shellParse (catLine name) shellMaxArgs)) := by
  have hecho : strEq (ascii "cat") (ascii "echo") = false := by simp [ascii, strEq]
  have hclear : strEq (ascii "cat") (ascii "clear") = false := by simp [ascii, strEq]
  have hls : strEq (ascii "cat") (ascii "ls") = false := by simp [ascii, strEq]
  have hcat : strEq (ascii "cat") (ascii "cat") = true := by simp [ascii, strEq]
  obtain ⟨rest, hparse⟩ : ∃ rest, shellParse (catLine name) shellMaxArgs = ascii "cat" :: rest := by
    rw [shellParse_catLine hspace]
    split
    · exact ⟨[], rfl⟩
    · exact ⟨[name], rfl⟩
  rw [runLine, hparse]
  simp only [hecho, hclear, hls, hcat, if_true, Bool.false_eq_true, if_false, cmdCat_eq]

/-! ## What the size rules out -/

/-- A file read returns an error or at most `max_size`. -/
theorem fssoReadFile_ret_le {dv : Drive} (hsound : dv.Sound) (t : Nat) (fs : FssoFilesystem)
    (n : UInt32) (out : Bytes) (maxSize : UInt32) :
    (fssoReadFile dv t fs n out maxSize).ret ≤ maxSize.toNat := by
  by_cases hn : n < fs.superblock.totalInodes
  · by_cases hfile : (inodeAt dv.disk (readerInodeAddr n)).type = fssoTypeFile
    · have hret := (fssoReadFile_sound hsound hn (t := t) out maxSize hfile).1
      rw [hret]
      omega
    · have hread := fssoReadInode_of_ok (t := t) dv.staleInode hn (hsound t)
      simp only [fssoReadFile, hread, ne_eq, not_true_eq_false, if_false, hfile, not_false_eq_true,
        if_true]
      omega
  · have hread : fssoReadInode dv t fs n dv.staleInode = ⟨-1, dv.staleInode, t⟩ := by
      rw [fssoReadInode, if_pos (UInt32.not_lt.mp hn)]
    have hbad : ((-1 : Int) ≠ 0) := by decide
    simp only [fssoReadFile, hread, if_pos hbad]
    omega

/-- No output of `cat` with a name of at most 200 characters is longer than the buffer and a
newline, and one as long ends in the newline. -/
theorem catText_bounds {K : Kernel} (hsound : K.drive.Sound) (fs : FssoFilesystem) (t : Nat)
    {name : List UInt8} (hlen : name.length ≤ 200) :
    (catText K fs t [ascii "cat", name]).length ≤ 4097 ∧
      ∀ i, (hi : i < (catText K fs t [ascii "cat", name]).length) → i = 4096 →
        (catText K fs t [ascii "cat", name])[i] = newline := by
  have hmissing : (ascii "File not found: ").length = 16 := by simp [ascii]
  have herror : (ascii "Error reading file\n").length = 19 := by simp [ascii]
  simp only [catText]
  split
  · refine ⟨?_, fun i hi heq => ?_⟩
    · simp only [List.length_append, List.length_singleton, hmissing]
      omega
    · simp only [List.length_append, List.length_singleton, hmissing] at hi
      omega
  · split
    · refine ⟨by omega, fun i hi heq => ?_⟩
      omega
    · have hret := fssoReadFile_ret_le hsound (fssoFindInDir K.drive t fs 0 name 0).clock fs
        (fssoFindInDir K.drive t fs 0 name 0).out (K.fileBuf t) 4096
      have hmax : (4096 : UInt32).toNat = 4096 := rfl
      refine ⟨?_, fun i hi heq => ?_⟩
      · simp only [List.length_append, List.length_map, List.length_range, List.length_singleton]
        omega
      · simp only [List.length_append, List.length_map, List.length_range,
          List.length_singleton] at hi
        rw [List.getElem_append_right (by simp; omega)]
        simp

/-- **Necessity.**  Whatever the image, only a file that fits is printed whole. -/
theorem catFits_of_prefix {K : Kernel} (hsound : K.drive.Sound) (fs : FssoFilesystem) (t : Nat)
    {c : AddCall} (hspace : space ∉ c.name) (hlen : c.name.length ≤ 200)
    (hpre : fileText c <+: catText K fs t (shellParse (catLine c.name) shellMaxArgs)) :
    CatFits c := by
  rw [shellParse_catLine hspace] at hpre
  unfold CatFits
  by_cases hname : c.name = []
  · rw [if_pos hname] at hpre ⊢
    exact hpre
  · rw [if_neg hname] at hpre ⊢
    obtain ⟨hbound, hlast⟩ := catText_bounds hsound fs t hlen
    have hsize : (fileText c).length = c.size.toNat := by simp [fileText]
    have hle := hpre.length_le
    by_cases hsmall : c.size.toNat ≤ 4096
    · exact Or.inl hsmall
    · refine Or.inr ⟨by omega, ?_⟩
      have hin : 4096 < (fileText c).length := by omega
      have hsame := hpre.getElem hin
      rw [hlast 4096 (by omega) rfl] at hsame
      rw [← hsame]
      simp [fileText]

/-! ## What the image holds -/

section Printed

variable {calls more : List AddCall} {disk disk' final : Bytes} {c : AddCall} {K : Kernel}

/-- The name of the file is listed with its inode and with no other. -/
theorem lookup_fresh (hshort : calls.length < 3) (hstring : ∀ x ∈ c.name, x ≠ 0)
    (hname : c.name.length ≤ 200) (hfresh : ∀ earlier ∈ calls, cName earlier.name ≠ c.name) :
    lookup (rootEntries (c :: calls)) c.name = some (UInt32.ofNat (calls.length + 1)) := by
  have hwhole : cName c.name = c.name := cName_of_nulFree hstring
  have hold : lookup (rootEntries calls) c.name = none := by
    apply lookup_eq_none.mpr
    intro e he hsame
    rw [hwhole] at hsame
    obtain ⟨earlier, hmem, hstored⟩ := (mem_rootEntries hshort c.name).mp ⟨e, he, hsame⟩
    exact storedName_ne hname (hfresh earlier hmem) hstored
  have hfits : storedName c.name = cName c.name := by
    rw [cName_eq_storedName, hwhole]
    omega
  rw [lookup_added hshort, hold, if_pos hfits]
  rfl

/-- **Run lemma.**  Up to 106 calls in all keep the file that one of them added. -/
theorem unharmed_of_short (hreach : Reaches calls disk) (hrun : c.run disk = some (0, disk'))
    (hmore : Reaches (more ++ c :: calls) final) (hlen : (more ++ c :: calls).length ≤ 106) :
    Unharmed disk' final (calls.length + 1) calls.length := by
  have hshort : calls.length < 3 := (hreach.succeeds_iff hrun).mp rfl
  have hadded := Reaches.call hreach hrun
  induction more generalizing final with
  | nil =>
      rw [Reaches.unique hmore hadded]
      exact ⟨⟨fun _ _ _ => rfl, fun _ _ _ _ _ _ => rfl, fun _ _ _ => rfl⟩, fun _ _ _ _ _ => rfl⟩
  | cons e more ih =>
      rw [List.cons_append] at hmore hlen
      rw [List.length_cons] at hlen
      cases hmore with
      | @call _ before _ _ _ hbefore hstep =>
          have hcount : calls.length + 1 ≤ (more ++ c :: calls).length := by
            rw [List.length_append, List.length_cons]
            omega
          have hold := ih hbefore (by omega)
          have htidy := hbefore.tidy (by omega)
          obtain ⟨_, hfoot⟩ := hbefore.inv.footprint htidy (by omega) hstep
          have hroot : rootBase before = rootBase disk' := by
            rw [hbefore.inv.layout.rootBase_eq, hadded.inv.layout.rootBase_eq]
          have hfile := hfoot.fileKept htidy hbefore.inv (by omega) (by omega) hcount hshort
            (by omega)
          refine ⟨hold.file.trans hfile hroot, fun k hk x hlo hhi => ?_⟩
          have hslot := hfoot.entries k (by omega)
            ((hbefore.inv.slots k (by omega)).mpr (by omega)) x
          rw [hadded.inv.layout.rootBase_eq] at hlo hhi
          refine (hslot hlo hhi).trans (hold.before k hk x ?_ ?_)
          · rw [hadded.inv.layout.rootBase_eq]
            exact hlo
          · rw [hadded.inv.layout.rootBase_eq]
            exact hhi

/-- The root directory of an unharmed image begins with the entries made up to the
file. -/
theorem Unharmed.begins (h : Unharmed disk' final (calls.length + 1) calls.length)
    (hadded : Reaches (c :: calls) disk') (hshort : calls.length < 3) :
    Begins final 11264 (rootEntries (c :: calls)) := by
  have hlists := hadded.lists (by rw [List.length_cons]; omega)
  have hcount := length_rootEntries (c :: calls)
  rw [List.length_cons] at hcount
  have hroot := hadded.inv.layout.rootBase_eq
  refine hlists.toBegins.kept fun s hs => ?_
  by_cases hlast : s = calls.length
  · rw [hlast, ← hroot]
    exact h.file.entry
  · rw [← hroot]
    exact h.before s (by omega)

/-- **What `cat` prints of an unharmed file.**  The blocks as far as they fit the
buffer, which begin with the data, and a newline. -/
theorem catText_of_unharmed (hreach : Reaches calls disk) (hrun : c.run disk = some (0, disk'))
    (hmore : Reaches (more ++ c :: calls) final)
    (hkept : Unharmed disk' final (calls.length + 1) calls.length)
    (hsize : c.size.toNat ≤ 12 * 1024) (hstring : ∀ x ∈ c.name, x ≠ 0)
    (hname : c.name.length ≤ 200) (hfresh : ∀ earlier ∈ calls, cName earlier.name ≠ c.name)
    (hsound : K.drive.Sound) (hdisk : K.drive.disk = final) {fs : FssoFilesystem}
    (htotal : fs.superblock.totalInodes = 512) (t : Nat) :
    ∃ out : Bytes, catText K fs t [ascii "cat", c.name] =
      (List.range (min (1024 * ((c.size.toNat + 1023) / 1024)) 4096)).map out ++ [newline] ∧
        ∀ i, i < c.size.toNat → i < 4096 → out i = c.data i := by
  have hshort : calls.length < 3 := (hreach.succeeds_iff hrun).mp rfl
  obtain ⟨bs, hadded⟩ := stored_of_add hreach.inv (hreach.tidy (by omega)) hshort hsize hrun
  have hlength := hadded.length
  have hstored := hadded.kept (by omega) hkept.file
  have hbegins := hkept.begins (Reaches.call hreach hrun) hshort
  have hlayout := hmore.inv.layout
  rw [← hdisk] at hstored hbegins hlayout
  have hfind := fssoFindInDir_of_begins hsound hlayout hbegins htotal t
    (lookup_fresh hshort hstring hname hfresh) 0
  have hnat : (UInt32.ofNat (calls.length + 1)).toNat = calls.length + 1 :=
    ofNat_toNat_of_lt (by omega)
  have haddr : readerInodeAddr (UInt32.ofNat (calls.length + 1)) =
      inodeAddr (calls.length + 1) := by
    rw [readerInodeAddr_eq, inodeAddr_eq, hnat]
    omega
  have hn : UInt32.ofNat (calls.length + 1) < fs.superblock.totalInodes := by
    rw [htotal, UInt32.lt_iff_toNat_lt, hnat]
    simp only [UInt32.reduceToNat]
    omega
  have hread := fssoReadFile_sound hsound hn (t := t + 2) (K.fileBuf t) 4096
    (by rw [haddr]; exact hstored.type)
  have hmax : (4096 : UInt32).toNat = 4096 := rfl
  rw [haddr] at hread
  dsimp only at hread
  rw [hstored.leadBlocks_eq (by omega), List.length_map, hlength, hmax] at hread
  obtain ⟨hret, hbytes⟩ := hread
  refine ⟨(fssoReadFile K.drive (t + 2) fs (UInt32.ofNat (calls.length + 1)) (K.fileBuf t)
    4096).out, ?_, fun i hi hbuffer => ?_⟩
  · simp only [catText, hfind, ne_eq, not_true_eq_false, if_false]
    rw [if_neg (by omega), hret, Int.toNat_natCast]
  · rw [hbytes i, if_pos (by omega)]
    exact hstored.fileByte_eq (by omega) hi

/-- **Sufficiency.**  A file that fits is printed whole while it is unharmed. -/
theorem prefix_of_catFits (hreach : Reaches calls disk) (hrun : c.run disk = some (0, disk'))
    (hmore : Reaches (more ++ c :: calls) final)
    (hkept : Unharmed disk' final (calls.length + 1) calls.length)
    (hsize : c.size.toNat ≤ 12 * 1024) (hstring : ∀ x ∈ c.name, x ≠ 0) (hspace : space ∉ c.name)
    (hname : c.name.length ≤ 200) (hfresh : ∀ earlier ∈ calls, cName earlier.name ≠ c.name)
    (hsound : K.drive.Sound) (hdisk : K.drive.disk = final) {fs : FssoFilesystem}
    (htotal : fs.superblock.totalInodes = 512) (t : Nat) (hfits : CatFits c) :
    fileText c <+: catText K fs t (shellParse (catLine c.name) shellMaxArgs) := by
  rw [shellParse_catLine hspace]
  unfold CatFits at hfits
  by_cases hempty : c.name = []
  · rw [if_pos hempty] at hfits ⊢
    exact hfits
  rw [if_neg hempty] at hfits ⊢
  obtain ⟨out, hprinted, hout⟩ := catText_of_unharmed hreach hrun hmore hkept hsize hstring hname
    hfresh hsound hdisk htotal t
  have hfile : (fileText c).length = c.size.toNat := by simp [fileText]
  rw [hprinted, List.prefix_iff_getElem]
  refine ⟨?_, fun i hi => ?_⟩
  · simp only [List.length_append, List.length_map, List.length_range, List.length_singleton]
    omega
  · have hdata : (fileText c)[i] = c.data i := by simp [fileText]
    rw [hfile] at hi
    rw [hdata, List.getElem_append]
    split
    · rename_i hin
      rw [List.length_map, List.length_range] at hin
      rw [List.getElem_map, List.getElem_range, hout i hi (by omega)]
    · -- Only the newline at the end of a file of 4097 bytes is behind the buffer.
      rename_i hpast
      rw [List.length_map, List.length_range] at hpast
      rcases hfits with hsmall | ⟨hbig, hend⟩
      · omega
      · have hi' : i = 4096 := by omega
        rw [List.getElem_singleton, hi', hend]

/-- **Printing a stored file.**  A file that a run has added under a fresh name
without a space is printed whole by `cat` only if it fits, and exactly if it fits
as long as the image still holds it, as it does for the first 106 calls. -/
theorem cat_prints_iff (hreach : Reaches calls disk) (hrun : c.run disk = some (0, disk'))
    (hmore : Reaches (more ++ c :: calls) final) (hsize : c.size.toNat ≤ 12 * 1024)
    (hstring : ∀ x ∈ c.name, x ≠ 0) (hspace : space ∉ c.name) (hname : c.name.length ≤ 200)
    (hfresh : ∀ earlier ∈ calls, cName earlier.name ≠ c.name) (hsound : K.drive.Sound)
    (hdisk : K.drive.disk = final) {t₀ : Nat} {fs₀ fs : FssoFilesystem}
    (hfs : fs = (fssoMount K.drive t₀ fs₀).out) (t : Nat) {text : List UInt8}
    (htext : text = catText K fs t (shellParse (catLine c.name) shellMaxArgs)) :
    (∀ con, (runLine K fs t con (catLine c.name)).1 = shellPrint con text) ∧
    (fileText c <+: text → CatFits c) ∧
    (Unharmed disk' final (calls.length + 1) calls.length →
      (fileText c <+: text ↔ CatFits c)) ∧
    ((more ++ c :: calls).length ≤ 106 →
      Unharmed disk' final (calls.length + 1) calls.length) := by
  have hlayout := hmore.inv.layout
  have htotal : fs.superblock.totalInodes = 512 := by
    obtain ⟨_, htotal⟩ := fssoMount_sound hsound t₀ fs₀ (by rw [hdisk]; exact hlayout.magic)
    have hinodes : word32 K.drive.disk 16 = 512 := by rw [hdisk]; exact hlayout.totalInodes
    rw [hfs]
    exact htotal.trans hinodes
  have honly : fileText c <+: text → CatFits c := by
    rw [htext]
    exact catFits_of_prefix hsound fs t hspace hname
  refine ⟨fun con => ?_, honly, fun hkept => ⟨honly, fun hfits => ?_⟩,
    unharmed_of_short hreach hrun hmore⟩
  · rw [htext]
    exact runLine_catLine K fs t con hspace
  · rw [htext]
    exact prefix_of_catFits hreach hrun hmore hkept hsize hstring hspace hname hfresh hsound hdisk
      htotal t hfits

end Printed

/-- A kernel whose drive delivers `disk`. -/
def plainKernel (disk : Bytes) : Kernel where
  screen := ⟨768, 1024⟩
  hba := none
  drive := ⟨zeroMemory, disk, fun _ => true⟩
  staleFs := formattedFs
  fileBuf := fun _ _ => 0
  stray := fun _ _ => 0

/-- What it prints for a file of that disk. -/
def plainText (disk : Bytes) (name : List UInt8) : List UInt8 :=
  catText (plainKernel disk) (fssoMount (plainKernel disk).drive 0 formattedFs).out 1
    (shellParse (catLine name) shellMaxArgs)

theorem cat_prints_hello : fileText helloCall <+: plainText helloDisk helloCall.name := by
  have hmore : Reaches ([] ++ helloCall :: []) helloDisk :=
    Reaches.call Reaches.format helloCall_run
  have hsound : (plainKernel helloDisk).drive.Sound := fun _ => rfl
  have hfits : CatFits helloCall := by
    unfold CatFits
    rw [if_neg (by decide)]
    exact Or.inl (by decide)
  have hstring : ∀ x ∈ helloCall.name, x ≠ 0 := by simp [helloCall]
  have hspace : space ∉ helloCall.name := by simp [helloCall, space]
  obtain ⟨fs, hfs⟩ : ∃ fs, fs = (fssoMount (plainKernel helloDisk).drive 0 formattedFs).out :=
    ⟨_, rfl⟩
  obtain ⟨_, _, hprinted, hkept⟩ := cat_prints_iff Reaches.format helloCall_run hmore (by decide)
    hstring hspace (by decide) (fun _ hmem => absurd hmem (by simp)) hsound rfl hfs 1 rfl
  rw [plainText, ← hfs]
  exact (hprinted (hkept (by decide))).mpr hfits

/-- A file of five blocks of zeros. -/
def fiveBlocks : AddCall := ⟨[97], fun _ => 0, 5 * 1024⟩

/-- It is accepted and not printed whole. -/
theorem fiveBlocks_not_printed : ∃ disk', fiveBlocks.run mkfssoFormat = some (0, disk') ∧
    ¬ fileText fiveBlocks <+: plainText disk' fiveBlocks.name := by
  obtain ⟨disk', hrun⟩ := Reaches.format.succeeds (c := fiveBlocks) (by decide) (by decide)
  refine ⟨disk', hrun, fun hpre => ?_⟩
  have hsound : (plainKernel disk').drive.Sound := fun _ => rfl
  have hfits : CatFits fiveBlocks := catFits_of_prefix hsound _ 1 (by decide) (by decide) hpre
  unfold CatFits at hfits
  rw [if_neg (by decide)] at hfits
  obtain hsmall | ⟨hbig, _⟩ := hfits
  · exact absurd hsmall (by decide)
  · exact absurd hbig (by decide)

end Shell
