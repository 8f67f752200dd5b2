import SimplrOS.EntryName
import SimplrOS.InodeTable
import SimplrOS.RoundTrip

/-!
# Names in the root directory

After any run of at most 106 calls the root directory lists the files of the
first three calls in order, each under its name cut to 255 characters.  Looking a
name up is finding the first entry listed under exactly that name, so a new file
is found unless its name was cut or an earlier file has it, and no new file hides
an old one.
-/

namespace Fsso

open ByteStore

/-- A directory entry in use. -/
structure RootEntry where
  inode : UInt32
  name : List UInt8

/-- The entries made by a run. -/
def rootEntries (calls : List AddCall) : List RootEntry :=
  (calls.reverse.take entriesPerBlock).mapIdx fun s c =>
    ⟨UInt32.ofNat (s + 1), storedName c.name⟩

/-- The inode of the first entry with the given name. -/
def lookup (entries : List RootEntry) (name : List UInt8) : Option UInt32 :=
  (entries.find? fun e => e.name = cName name).map RootEntry.inode

/-- The first slots of the directory block at `base` hold `entries`. -/
structure Begins (disk : Bytes) (base : Nat) (entries : List RootEntry) : Prop where
  room : entries.length ≤ 3
  inode : ∀ s, (hs : s < entries.length) → word32 disk (entryAddr base s) = entries[s].inode
  used : ∀ e ∈ entries, e.inode ≠ 0
  name : ∀ s, (hs : s < entries.length) → HoldsString disk (entryAddr base s + 4) entries[s].name
  string : ∀ e ∈ entries, (∀ c ∈ e.name, c ≠ 0) ∧ e.name.length ≤ 255

/-- The directory block at `base` lists exactly `entries`. -/
structure Lists (disk : Bytes) (base : Nat) (entries : List RootEntry) : Prop
    extends Begins disk base entries where
  free : ∀ s, entries.length ≤ s → s < 3 → word32 disk (entryAddr base s) = 0

/-- `name` is found with inode `m`: on every drive that delivers `disk`, the
file system mounts and `fsso_find_in_dir` on the root answers `m`. -/
def Resolves (disk : Bytes) (name : List UInt8) (m : UInt32) : Prop :=
  ∀ (dv : Drive) (t t' : Nat) (fs : FssoFilesystem) (out : UInt32), dv.Sound → dv.disk = disk →
    (fssoMount dv t fs).ret = 0 ∧
    (fssoFindInDir dv t' (fssoMount dv t fs).out 0 name out).ret = 0 ∧
    (fssoFindInDir dv t' (fssoMount dv t fs).out 0 name out).out = m

/-- The call that made `disk'` of `disk` and took inode `n` added a file that is
found, and every name found before is found as before. -/
structure Findable (disk : Bytes) (c : AddCall) (disk' : Bytes) (n : Nat) : Prop where
  found : Resolves disk' c.name (UInt32.ofNat n)
  kept : ∀ name m, Resolves disk name m → Resolves disk' name m

/-! ## Looking up in a list of entries -/

theorem lookup_append (entries more : List RootEntry) (name : List UInt8) :
    lookup (entries ++ more) name = (lookup entries name).or (lookup more name) := by
  rw [lookup, List.find?_append, lookup, lookup, Option.map_or]

/-- Nothing is found exactly if no entry has the name. -/
theorem lookup_eq_none {entries : List RootEntry} {name : List UInt8} :
    lookup entries name = none ↔ ∀ e ∈ entries, e.name ≠ cName name := by
  simp [lookup, List.find?_eq_none]

theorem lookup_cons (e : RootEntry) (rest : List RootEntry) (name : List UInt8) :
    lookup (e :: rest) name =
      if e.name = cName name then some e.inode else lookup rest name := by
  by_cases h : e.name = cName name <;> simp [lookup, h]

theorem length_rootEntries (calls : List AddCall) :
    (rootEntries calls).length = min 3 calls.length := by
  rw [rootEntries, List.length_mapIdx, List.length_take, List.length_reverse]
  rfl

/-- Slot `s` belongs to the file created as number `s + 1`. -/
theorem getElem_rootEntries (calls : List AddCall) {s : Nat} (hs : s < (rootEntries calls).length)
    (hs' : s < calls.reverse.length) :
    (rootEntries calls)[s] = ⟨UInt32.ofNat (s + 1), storedName calls.reverse[s].name⟩ := by
  simp [rootEntries]

/-- A further call adds its entry at the end while there is room. -/
theorem rootEntries_cons (c : AddCall) (calls : List AddCall) :
    rootEntries (c :: calls) = rootEntries calls ++
      if calls.length < 3 then [⟨UInt32.ofNat (calls.length + 1), storedName c.name⟩] else [] := by
  have hslots : entriesPerBlock = 3 := rfl
  by_cases hm : calls.length < 3
  · have hwhole : (calls.reverse ++ [c]).take entriesPerBlock = calls.reverse ++ [c] :=
      List.take_of_length_le (by simp; omega)
    have hwhole' : calls.reverse.take entriesPerBlock = calls.reverse :=
      List.take_of_length_le (by simp; omega)
    rw [rootEntries, rootEntries, List.reverse_cons, hwhole, hwhole', List.mapIdx_append,
      if_pos hm]
    simp
  · have hsame : (calls.reverse ++ [c]).take entriesPerBlock =
        calls.reverse.take entriesPerBlock :=
      List.take_append_of_le_length (by simp; omega)
    rw [rootEntries, rootEntries, List.reverse_cons, hsame, if_neg hm, List.append_nil]

/-! ## The reader's scan -/

/-- The scan from slot `j` finds what the entries from `j` on hold, and otherwise
goes on behind them. -/
theorem findEntry_of_begins {buffer : Bytes} {entries : List RootEntry}
    (h : Begins buffer 0 entries) (name : List UInt8) (j fuel : Nat) (hfuel : j + fuel = 3) :
    findEntry buffer name j fuel =
      (lookup (entries.drop j) name).or
        (findEntry buffer name (max j entries.length) (3 - max j entries.length)) := by
  have hroom := h.room
  induction fuel generalizing j with
  | zero =>
      have hlast : max j entries.length = 3 := by omega
      rw [List.drop_eq_nil_of_le (by omega), hlast]
      rfl
  | succ fuel ih =>
      by_cases hj : j < entries.length
      · have hmem := List.getElem_mem hj
        have hmatch := nameMatches_iff (h.string _ hmem).1 (h.name j hj) name
        have hrest := ih (j + 1) (by omega)
        have hplace : max (j + 1) entries.length = max j entries.length := by omega
        rw [findEntry, h.inode j hj, if_neg (h.used _ hmem), List.drop_eq_getElem_cons hj,
          lookup_cons]
        by_cases hname : entries[j].name = cName name
        · rw [if_pos (hmatch.mpr hname), if_pos hname, Option.some_or]
        · rw [if_neg (fun hyes => hname (hmatch.mp hyes)), if_neg hname, hrest, hplace]
      · have hplace : max j entries.length = j := by omega
        have hleft : 3 - j = fuel + 1 := by omega
        rw [List.drop_eq_nil_of_le (by omega), hplace, hleft]
        rfl

/-- Free slots match nothing. -/
theorem findEntry_of_free {buffer : Bytes} {j : Nat}
    (hfree : ∀ s, j ≤ s → s < 3 → word32 buffer (entryAddr 0 s) = 0) (name : List UInt8)
    (fuel : Nat) (hfuel : j + fuel ≤ 3) : findEntry buffer name j fuel = none := by
  induction fuel generalizing j with
  | zero => rfl
  | succ fuel ih =>
      rw [findEntry, if_pos (hfree j (by omega) (by omega))]
      exact ih (fun s hs => hfree s (by omega)) (by omega)

/-- Scanning a directory block is looking the name up in its entries. -/
theorem findEntry_eq {buffer : Bytes} {entries : List RootEntry} (h : Lists buffer 0 entries)
    (name : List UInt8) : findEntry buffer name 0 3 = lookup entries name := by
  have hroom := h.room
  rw [findEntry_of_begins h.toBegins name 0 3 rfl, List.drop_zero, Nat.zero_max,
    findEntry_of_free h.free name _ (by omega), Option.or_none]

/-- The words of a directory block read into a buffer. -/
theorem word32_readBlock {dv : Drive} {t : Nat} (hfate : dv.fate t = true) (b : UInt32)
    (buffer : Bytes) {s : Nat} (hs : s < 3) :
    word32 (readBlock dv t b buffer) (entryAddr 0 s) =
      word32 dv.disk (entryAddr (1024 * b.toNat) s) := by
  have haddr := entryAddr_eq 0 s
  have haddr' := entryAddr_eq (1024 * b.toNat) s
  apply word32_ext
  intro i hi
  rw [readBlock_of_ok b buffer hfate (by omega)]
  congr 1
  omega

/-- A directory block read into a buffer begins with the same entries. -/
theorem Begins.readBlock {dv : Drive} {b : UInt32} {entries : List RootEntry}
    (h : Begins dv.disk (1024 * b.toNat) entries) {t : Nat} (hfate : dv.fate t = true)
    (buffer : Bytes) : Begins (readBlock dv t b buffer) 0 entries where
  room := h.room
  used := h.used
  string := h.string
  inode := by
    intro s hs
    have hroom := h.room
    rw [← h.inode s hs]
    exact word32_readBlock hfate b buffer (by omega)
  name := by
    intro s hs
    have hroom := h.room
    have hlen := (h.string _ (List.getElem_mem hs)).2
    refine (h.name s hs).congr fun i hi => ?_
    have haddr := entryAddr_eq 0 s
    have haddr' := entryAddr_eq (1024 * b.toNat) s
    rw [readBlock_of_ok b buffer hfate (by omega)]
    congr 1
    omega

/-- A directory block read into a buffer lists the same entries. -/
theorem Lists.readBlock {dv : Drive} {b : UInt32} {entries : List RootEntry}
    (h : Lists dv.disk (1024 * b.toNat) entries) {t : Nat} (hfate : dv.fate t = true)
    (buffer : Bytes) : Lists (readBlock dv t b buffer) 0 entries where
  toBegins := h.toBegins.readBlock hfate buffer
  free := by
    intro s hs hs3
    rw [word32_readBlock hfate b buffer hs3]
    exact h.free s hs hs3

/-- The root inode as the reader gets it. -/
theorem Layout.rootInode {disk : Bytes} (h : Layout disk) :
    inodeAt disk (readerInodeAddr 0) = inodeAt mkfssoFormat 3072 := by
  have haddr : readerInodeAddr 0 = 3072 := by rw [readerInodeAddr_eq]; rfl
  rw [haddr]
  exact inodeAt_ext fun i hi => h.root (3072 + i) (by omega) (by omega)

/-- `fsso_find_in_dir` on the root is the scan of its block. -/
theorem fssoFindInDir_eq {dv : Drive} (hsound : dv.Sound) (h : Layout dv.disk)
    {fs : FssoFilesystem} (htotal : fs.superblock.totalInodes = 512) (t : Nat) (name : List UInt8)
    (out : UInt32) :
    fssoFindInDir dv t fs 0 name out =
      match findEntry (readBlock dv (t + 1) 11 (dv.stack (t + 1))) name 0 3 with
      | some m => ⟨0, m, t + 2⟩
      | none => ⟨-3, out, t + 2⟩ := by
  have hread := fssoReadInode_of_ok (t := t) dv.staleInode (n := 0)
    (by rw [htotal]; decide) (hsound t)
  rw [h.rootInode] at hread
  have htype : (inodeAt mkfssoFormat 3072).type = fssoTypeDir := by decide
  have hptrs : (inodeAt mkfssoFormat 3072).direct.toList = 11 :: 0 :: List.replicate 10 0 := by
    decide
  have hslots : entriesPerBlock = 3 := rfl
  have hfirst : (11 : UInt32) ≠ 0 := by decide
  simp only [fssoFindInDir, hread, htype, hptrs, scanDir, hslots, if_neg hfirst, if_true,
    ne_eq, not_true_eq_false, if_false]
  cases findEntry (readBlock dv (t + 1) 11 (dv.stack (t + 1))) name 0 3 <;> rfl

/-- **Lookup in the root directory.** -/
theorem fssoFindInDir_root {dv : Drive} (hsound : dv.Sound) (h : Layout dv.disk)
    {entries : List RootEntry} (hlists : Lists dv.disk 11264 entries) {fs : FssoFilesystem}
    (htotal : fs.superblock.totalInodes = 512) (t : Nat) (name : List UInt8) (out : UInt32) :
    fssoFindInDir dv t fs 0 name out =
      match lookup entries name with
      | some m => ⟨0, m, t + 2⟩
      | none => ⟨-3, out, t + 2⟩ := by
  have hblock : Lists (readBlock dv (t + 1) 11 (dv.stack (t + 1))) 0 entries :=
    Lists.readBlock hlists (hsound (t + 1)) (dv.stack (t + 1))
  rw [fssoFindInDir_eq hsound h htotal, findEntry_eq hblock name]

/-- What the first slots hold is found, whatever the others hold. -/
theorem fssoFindInDir_of_begins {dv : Drive} (hsound : dv.Sound) (h : Layout dv.disk)
    {entries : List RootEntry} (hbegins : Begins dv.disk 11264 entries) {fs : FssoFilesystem}
    (htotal : fs.superblock.totalInodes = 512) (t : Nat) {name : List UInt8} {m : UInt32}
    (hlook : lookup entries name = some m) (out : UInt32) :
    fssoFindInDir dv t fs 0 name out = ⟨0, m, t + 2⟩ := by
  have hblock : Begins (readBlock dv (t + 1) 11 (dv.stack (t + 1))) 0 entries :=
    Begins.readBlock hbegins (hsound (t + 1)) (dv.stack (t + 1))
  have hscan := findEntry_of_begins hblock name 0 3 rfl
  rw [List.drop_zero, hlook, Option.some_or] at hscan
  rw [fssoFindInDir_eq hsound h htotal, hscan]

/-! ## What a run lists -/

theorem Lists.of_format : Lists mkfssoFormat 11264 [] where
  room := by decide
  inode := fun s hs => absurd hs (by simp)
  used := fun e he => absurd he (by simp)
  name := fun s hs => absurd hs (by simp)
  string := fun e he => absurd he (by simp)
  free := by
    intro s _ _
    have haddr := entryAddr_eq 11264 s
    have hsame : SameOn mkfssoFormat (fun _ => 0) (entryAddr 11264 s) 4 :=
      fun x _ _ => mkfssoFormat_zero (by omega) (by omega) (by omega) (by omega) (by omega)
    rw [word32_congr hsame]
    rfl

/-- Entries whose bytes are kept stay. -/
theorem Begins.kept {disk disk' : Bytes} {base : Nat} {entries : List RootEntry}
    (h : Begins disk base entries)
    (hkept : ∀ s, s < entries.length → SameOn disk' disk (entryAddr base s) 260) :
    Begins disk' base entries where
  room := h.room
  used := h.used
  string := h.string
  inode := fun s hs =>
    (word32_congr fun x hlo hhi => hkept s hs x hlo (by omega)).trans (h.inode s hs)
  name := by
    intro s hs
    have hlen := (h.string _ (List.getElem_mem hs)).2
    exact (h.name s hs).congr fun i hi => hkept s hs _ (by omega) (by omega)

/-- A new entry is listed behind those whose bytes are kept. -/
theorem Lists.push {disk disk' : Bytes} {base : Nat} {entries : List RootEntry} {e : RootEntry}
    (h : Lists disk base entries) (hroom : entries.length < 3)
    (hkept : ∀ s, s < entries.length → SameOn disk' disk (entryAddr base s) 260)
    (hinode : word32 disk' (entryAddr base entries.length) = e.inode) (hused : e.inode ≠ 0)
    (hname : HoldsString disk' (entryAddr base entries.length + 4) e.name)
    (hstring : (∀ c ∈ e.name, c ≠ 0) ∧ e.name.length ≤ 255)
    (hfree : ∀ s, entries.length < s → s < 3 → word32 disk' (entryAddr base s) = 0) :
    Lists disk' base (entries ++ [e]) where
  room := by
    rw [List.length_append, List.length_singleton]
    exact hroom
  free := by
    intro s hs
    rw [List.length_append, List.length_singleton] at hs
    exact hfree s hs
  used := by
    intro e' he'
    rcases List.mem_append.mp he' with hold | hnew
    · exact h.used e' hold
    · rw [List.mem_singleton.mp hnew]
      exact hused
  string := by
    intro e' he'
    rcases List.mem_append.mp he' with hold | hnew
    · exact h.string e' hold
    · rw [List.mem_singleton.mp hnew]
      exact hstring
  inode := by
    intro s hs
    rw [List.length_append, List.length_singleton] at hs
    by_cases hold : s < entries.length
    · rw [List.getElem_append_left hold]
      exact (h.toBegins.kept hkept).inode s hold
    · obtain rfl : s = entries.length := by omega
      rw [List.getElem_concat_length rfl]
      exact hinode
  name := by
    intro s hs
    rw [List.length_append, List.length_singleton] at hs
    by_cases hold : s < entries.length
    · rw [List.getElem_append_left hold]
      exact (h.toBegins.kept hkept).name s hold
    · obtain rfl : s = entries.length := by omega
      rw [List.getElem_concat_length rfl]
      exact hname

/-- **Step lemma.**  A call adds its entry or leaves the directory alone. -/
theorem Lists.step {calls : List AddCall} {disk disk' : Bytes} {c : AddCall} {r : Int}
    (h : Lists disk 11264 (rootEntries calls)) (hreach : Reaches calls disk)
    (hlen : calls.length < 106) (hrun : c.run disk = some (r, disk')) :
    Lists disk' 11264 (rootEntries (c :: calls)) := by
  have hinv := hreach.inv
  have hinv' := hinv.step hrun
  have hcount := length_rootEntries calls
  obtain ⟨bs, hfoot⟩ := hinv.footprint (hreach.tidy (by omega)) hlen hrun
  have hkept : ∀ s, s < (rootEntries calls).length → SameOn disk' disk (entryAddr 11264 s) 260 :=
    fun s hs => hfoot.entries s (by omega) ((hinv.slots s (by omega)).mpr (by omega))
  have hfree : ∀ s, calls.length + 1 ≤ s → s < 3 → word32 disk' (entryAddr 11264 s) = 0 := by
    intro s hs hs3
    apply Classical.byContradiction
    intro hused
    have := (hinv'.slots s hs3).mp hused
    omega
  rw [rootEntries_cons]
  by_cases hm : calls.length < 3
  · obtain ⟨bs, hbs, hbslen, _, _, rfl⟩ := hinv.run_early hm hrun
    have hfilled : Effect disk (calls.length + 1) bs
        (filledDisk disk (calls.length + 1) bs c.data c.size) :=
      filledDisk_effect c.data c.size (by omega) hbslen hbs.range
    have hroot := (hfilled.layout hinv.layout (by omega) hbs.range).rootBase_eq
    have hinode := linkEntry_inode (filledDisk disk (calls.length + 1) bs c.data c.size)
      (calls.length + 1) calls.length bs.length c.name (by omega)
    have hname := linkEntry_name (filledDisk disk (calls.length + 1) bs c.data c.size)
      (calls.length + 1) calls.length bs.length c.name (by omega)
    have hat : (rootEntries calls).length = calls.length := by omega
    rw [hroot] at hinode hname
    rw [if_pos hm]
    apply h.push
    case hroom => omega
    case hkept => exact hkept
    case hinode => rw [hat, hinode]
    case hused => exact ofNat_ne_zero (Nat.succ_pos _) (by omega)
    case hname =>
      rw [hat]
      exact hname
    case hstring => exact ⟨ne_zero_of_mem_storedName, length_storedName_le c.name⟩
    case hfree => exact fun s hs => hfree s (by omega)
  · rw [if_neg hm, List.append_nil]
    exact ⟨h.toBegins.kept hkept, fun s hs hs3 => absurd hs3 (by omega)⟩

/-- **Run lemma.** -/
theorem Reaches.lists {calls : List AddCall} {disk : Bytes} (h : Reaches calls disk)
    (hlen : calls.length ≤ 106) : Lists disk 11264 (rootEntries calls) := by
  induction h with
  | format => exact Lists.of_format
  | @call calls disk disk' c r before hrun ih =>
      rw [List.length_cons] at hlen
      exact (ih (by omega)).step before (by omega) hrun

/-- **Lookup on the image of a run.** -/
theorem Reaches.resolves_iff {calls : List AddCall} {disk : Bytes} (h : Reaches calls disk)
    (hlen : calls.length ≤ 106) (name : List UInt8) (m : UInt32) :
    Resolves disk name m ↔ lookup (rootEntries calls) name = some m := by
  have hlayout := h.inv.layout
  have hfind : ∀ (dv : Drive) (t t' : Nat) (fs : FssoFilesystem) (out : UInt32), dv.Sound →
      dv.disk = disk → (fssoMount dv t fs).ret = 0 ∧
        fssoFindInDir dv t' (fssoMount dv t fs).out 0 name out =
          match lookup (rootEntries calls) name with
          | some m => ⟨0, m, t' + 2⟩
          | none => ⟨-3, out, t' + 2⟩ := by
    intro dv t t' fs out hsound hdisk
    obtain ⟨hmount, htotal⟩ := fssoMount_sound hsound t fs (by rw [hdisk]; exact hlayout.magic)
    have hinodes : word32 dv.disk 16 = 512 := by rw [hdisk]; exact hlayout.totalInodes
    refine ⟨hmount, fssoFindInDir_root hsound (by rw [hdisk]; exact hlayout) ?_
      (htotal.trans hinodes) t' name out⟩
    rw [hdisk]
    exact h.lists hlen
  constructor
  · intro hresolves
    obtain ⟨_, hret, hout⟩ := hresolves ⟨zeroMemory, disk, fun _ => true⟩ 0 1
      formattedFs 0 (fun _ => rfl) rfl
    obtain ⟨_, heq⟩ := hfind ⟨zeroMemory, disk, fun _ => true⟩ 0 1
      formattedFs 0 (fun _ => rfl) rfl
    rw [heq] at hret hout
    cases hlook : lookup (rootEntries calls) name with
    | none =>
        simp only [hlook] at hret
        exact absurd hret (by decide)
    | some k =>
        simp only [hlook] at hout
        rw [hout]
  · intro hlook dv t t' fs out hsound hdisk
    obtain ⟨hmount, heq⟩ := hfind dv t t' fs out hsound hdisk
    rw [hlook] at heq
    exact ⟨hmount, by rw [heq], by rw [heq]⟩

/-! ## Finding an added file -/

/-- The names under which the files of a short run are listed. -/
theorem mem_rootEntries {calls : List AddCall} (hlen : calls.length < 3) (s : List UInt8) :
    (∃ e ∈ rootEntries calls, e.name = s) ↔ ∃ c ∈ calls, storedName c.name = s := by
  have hcount := length_rootEntries calls
  constructor
  · intro hboth
    obtain ⟨e, he, rfl⟩ := hboth
    obtain ⟨k, hk, rfl⟩ := List.getElem_of_mem he
    have hk' : k < calls.reverse.length := by rw [List.length_reverse]; omega
    refine ⟨calls.reverse[k], List.mem_reverse.mp (List.getElem_mem hk'), ?_⟩
    rw [getElem_rootEntries calls hk hk']
  · intro hboth
    obtain ⟨c, hc, rfl⟩ := hboth
    obtain ⟨k, hk', rfl⟩ := List.getElem_of_mem (List.mem_reverse.mpr hc)
    have hk : k < (rootEntries calls).length := by
      rw [List.length_reverse] at hk'
      omega
    refine ⟨(rootEntries calls)[k], List.getElem_mem hk, ?_⟩
    rw [getElem_rootEntries calls hk hk']

/-- Earlier entries have earlier inode numbers. -/
theorem lookup_rootEntries_ne {calls : List AddCall} (hlen : calls.length < 3)
    {name : List UInt8} {m : UInt32} (h : lookup (rootEntries calls) name = some m) :
    m ≠ UInt32.ofNat (calls.length + 1) := by
  have hcount := length_rootEntries calls
  obtain ⟨e, he, rfl⟩ := Option.map_eq_some_iff.mp h
  obtain ⟨k, hk, rfl⟩ := List.getElem_of_mem (List.mem_of_find?_eq_some he)
  have hk' : k < calls.reverse.length := by rw [List.length_reverse]; omega
  rw [getElem_rootEntries calls hk hk']
  intro heq
  have hnat := congrArg UInt32.toNat heq
  simp only [UInt32.toNat_ofNat'] at hnat
  omega

/-- A name is stored whole exactly if it has at most 255 bytes. -/
theorem cName_eq_storedName {name : List UInt8} :
    storedName name = cName name ↔ (cName name).length ≤ 255 := by
  rw [storedName]
  exact List.take_eq_self_iff _

/-- A name of at most 200 characters is stored only by a call that has it. -/
theorem storedName_ne {name name' : List UInt8} (hlen : name.length ≤ 200)
    (hne : cName name' ≠ name) : storedName name' ≠ name := by
  intro heq
  have hcut := congrArg List.length heq
  rw [storedName, List.length_take] at hcut
  have hmax : fssoMaxFilename = 255 := rfl
  have hwhole : storedName name' = cName name' := cName_eq_storedName.mpr (by omega)
  exact hne (hwhole.symm.trans heq)

/-- The listing after a successful call, as a lookup sees it. -/
theorem lookup_added {calls : List AddCall} {c : AddCall} (hlen : calls.length < 3)
    (name : List UInt8) :
    lookup (rootEntries (c :: calls)) name =
      (lookup (rootEntries calls) name).or
        (if storedName c.name = cName name then some (UInt32.ofNat (calls.length + 1))
         else none) := by
  rw [rootEntries_cons, if_pos hlen, lookup_append, lookup_cons]
  rfl

/-- **Finding an added file.**  After any run, a file that a further call adds is
found under its name, with every earlier name found as before, exactly when the
name fits an entry and no earlier file is stored under it. -/
theorem findable_iff {calls : List AddCall} {disk disk' : Bytes} {c : AddCall} {n : Nat}
    (hreach : Reaches calls disk) (hrun : c.run disk = some (0, disk'))
    (hn : freeInode disk = some n) :
    Findable disk c disk' n ↔ (cName c.name).length ≤ fssoMaxFilename ∧
      ∀ earlier ∈ calls, storedName earlier.name ≠ cName c.name := by
  have hlen : calls.length < 3 := (hreach.succeeds_iff hrun).mp rfl
  have hafter := Reaches.call hreach hrun
  have hlen' : (c :: calls).length ≤ 106 := by
    rw [List.length_cons]
    omega
  rw [hreach.inv.freeInode_eq (by omega)] at hn
  cases hn
  have hlisted := mem_rootEntries hlen (cName c.name)
  have hadded := lookup_added (c := c) hlen c.name
  constructor
  · intro hfind
    have hnew := (hafter.resolves_iff hlen' c.name _).mp hfind.found
    rw [hadded] at hnew
    cases hold : lookup (rootEntries calls) c.name with
    | some m =>
        rw [hold, Option.some_or, Option.some.injEq] at hnew
        exact absurd hnew (lookup_rootEntries_ne hlen hold)
    | none =>
        rw [hold, Option.none_or] at hnew
        have hfits : storedName c.name = cName c.name := by
          apply Classical.byContradiction
          intro hcut
          rw [if_neg hcut] at hnew
          cases hnew
        refine ⟨cName_eq_storedName.mp hfits, fun earlier hmem hsame => ?_⟩
        obtain ⟨e, he, hname⟩ := hlisted.mpr ⟨earlier, hmem, hsame⟩
        exact lookup_eq_none.mp hold e he hname
  · intro hboth
    obtain ⟨hfits, hfresh⟩ := hboth
    have hold : lookup (rootEntries calls) c.name = none := by
      apply lookup_eq_none.mpr
      intro e he hname
      obtain ⟨earlier, hmem, hsame⟩ := hlisted.mp ⟨e, he, hname⟩
      exact hfresh earlier hmem hsame
    constructor
    case found =>
      rw [hafter.resolves_iff hlen', hadded, hold, if_pos (cName_eq_storedName.mpr hfits)]
      rfl
    case kept =>
      intro name m hresolves
      have hbefore := (hreach.resolves_iff (by omega) name m).mp hresolves
      rw [hafter.resolves_iff hlen', lookup_added hlen, hbefore]
      rfl

theorem findable_hello : Findable mkfssoFormat helloCall helloDisk 1 :=
  (findable_iff Reaches.format helloCall_run (by decide)).mpr
    ⟨by decide, fun _ hmem => absurd hmem (by simp)⟩

/-- An empty file with a name of 256 characters. -/
def longNameCall : AddCall := ⟨List.replicate 256 97, fun _ => 0, 0⟩

/-- A second file under the name of the first resolves to the first, and a name
of 256 characters resolves to nothing. -/
theorem added_not_findable :
    (∃ disk', helloCall.run helloDisk = some (0, disk') ∧ freeInode helloDisk = some 2 ∧
      ¬ Findable helloDisk helloCall disk' 2) ∧
    (∃ disk', longNameCall.run mkfssoFormat = some (0, disk') ∧
      freeInode mkfssoFormat = some 1 ∧ ¬ Findable mkfssoFormat longNameCall disk' 1) := by
  have hhello := Reaches.call Reaches.format helloCall_run
  constructor
  · obtain ⟨disk', hrun⟩ := hhello.succeeds (c := helloCall) (by decide) (by decide)
    refine ⟨disk', hrun, hhello.inv.freeInode_eq (by decide), fun hfind => ?_⟩
    have hnew := ((Reaches.call hhello hrun).resolves_iff (by decide) _ _).mp hfind.found
    exact absurd hnew (by decide)
  · obtain ⟨disk', hrun⟩ := Reaches.format.succeeds (c := longNameCall) (by decide) (by decide)
    refine ⟨disk', hrun, by decide, fun hfind => ?_⟩
    have hnew := ((Reaches.call Reaches.format hrun).resolves_iff (by decide) _ _).mp hfind.found
    rw [lookup_added (by decide)] at hnew
    have hnul : ∀ c ∈ longNameCall.name, c ≠ 0 := by
      intro c hc
      rw [List.eq_of_mem_replicate hc]
      decide
    have hlong : longNameCall.name.length = 256 := List.length_replicate
    have hcut : storedName longNameCall.name ≠ cName longNameCall.name := by
      rw [Ne, cName_eq_storedName, cName_of_nulFree hnul]
      omega
    rw [if_neg hcut] at hnew
    cases hnew

end Fsso
