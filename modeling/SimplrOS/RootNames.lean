import SimplrOS.ResolvePath

/-!
# Two ways of naming a root file

A file of the root directory can be named to `fsso_find_in_dir`, which compares the
whole name, and to `fsso_resolve_path`, which takes a dot for the end of a component
and cuts components to 255 characters.  They agree on names without a dot that fit
an entry.  A longer name is cut by the one and compared past the name field by the
other, and a name with a dot leads somewhere else altogether: on the images that
`mkfsso` makes, no file stored under such a name can be resolved.
-/

namespace Fsso

open ByteStore Words

/-- Both calls succeed or neither does, and then with the same inode. -/
def NamesAgree (byPath bySearch : Reply UInt32) : Prop :=
  (byPath.ret = 0 ↔ bySearch.ret = 0) ∧ (byPath.ret = 0 → byPath.out = bySearch.out)

/-- Where the directories of the disk lead from directory `n` on. -/
def leads (disk : Bytes) (fs : FssoFilesystem) : UInt32 → List (List UInt8) → Option UInt32
  | n, [] => some n
  | n, component :: rest =>
      if n < fs.superblock.totalInodes ∧
          (inodeAt disk (readerInodeAddr n)).type = fssoTypeDir then
        (lookup (dirEntries disk n) component).bind fun m => leads disk fs m rest
      else none

/-- The disk does not tell the two ways of naming `s` apart: a name with a dot leads
through the directories where its own entry leads, and for a name too long for an entry
the first entry with its front part has the inode of the first one that runs on, behind
the name field, as the whole name. -/
def Consistent (disk behind : Bytes) (fs : FssoFilesystem) (s : List UInt8) : Prop :=
  if dot ∈ s then leads disk fs 0 (components s) = leads disk fs 0 [s]
  else s.length ≤ 255 ∨ fs.superblock.totalInodes = 0 ∨
    ∀ m, FirstEntry (dirEntries disk 0) (s.take 255) m ↔
      FirstEntry (runOnEntries disk behind (s.length + 1) 0) s m

/-! ## Replies and outcomes -/

-- The entries of a directory are compared here, never read off the disk.
attribute [local irreducible] inodePtrs

/-- The reply reports the outcome. -/
def Answers (r : Reply UInt32) : Option UInt32 → Prop
  | some m => r.ret = 0 ∧ r.out = m
  | none => r.ret ≠ 0

theorem Follows.answers {r : Reply UInt32} {out : UInt32} {outcome : Option UInt32}
    (h : Follows r out outcome) : Answers r outcome := by
  cases outcome with
  | some m => exact h
  | none =>
      have hret : r.ret = -1 := h.1
      intro hzero
      rw [hret] at hzero
      exact absurd hzero (by decide)

theorem namesAgree_iff {r r' : Reply UInt32} {outcome outcome' : Option UInt32}
    (h : Answers r outcome) (h' : Answers r' outcome') :
    NamesAgree r r' ↔ outcome = outcome' := by
  cases outcome with
  | none =>
      cases outcome' with
      | none => exact iff_of_true ⟨iff_of_false h h', fun hret => absurd hret h⟩ rfl
      | some m' => exact iff_of_false (fun hagree => h (hagree.1.mpr h'.1)) (by simp)
  | some m =>
      cases outcome' with
      | none => exact iff_of_false (fun hagree => h' (hagree.1.mp h.1)) (by simp)
      | some m' =>
          rw [NamesAgree, h.2, h'.2, Option.some.injEq]
          exact ⟨fun hagree => hagree.2 h.1, fun hsame => ⟨iff_of_true h.1 h'.1, fun _ => hsame⟩⟩

/-- A search of a directory reports the lookup among its entries. -/
theorem fssoFindInDir_answers {name : List UInt8} (hname : ∀ c ∈ name, c ≠ 0) {dv : Drive}
    (hsound : dv.Sound) (t : Nat) {fs : FssoFilesystem} {n : UInt32}
    (hn : n < fs.superblock.totalInodes)
    (hdir : (inodeAt dv.disk (readerInodeAddr n)).type = fssoTypeDir) (out : UInt32) {k : Nat}
    (hk : name.length < k) :
    Answers (fssoFindInDir dv t fs n name out)
      (lookup (runOnEntries dv.disk (dv.stack (t + 1)) k n) name) := by
  obtain ⟨t', hreply⟩ := fssoFindInDir_runOn hname hk hsound t fs n out
  rw [hreply, if_neg (UInt32.not_le.mpr hn), if_neg (not_not_intro hdir)]
  cases lookup (runOnEntries dv.disk (dv.stack (t + 1)) k n) name with
  | none => exact (by decide : (-3 : Int) ≠ 0)
  | some m => exact ⟨rfl, rfl⟩

/-- One component leads where the root directory says. -/
theorem leads_singleton (disk : Bytes) (fs : FssoFilesystem) (n : UInt32) (name : List UInt8) :
    leads disk fs n [name] =
      if n < fs.superblock.totalInodes ∧
          (inodeAt disk (readerInodeAddr n)).type = fssoTypeDir then
        lookup (dirEntries disk n) name
      else none := by
  have hone : (fun m => leads disk fs m []) = some := by
    funext m
    rw [leads]
  rw [leads, hone, Option.bind_fun_some]

/-- One step of the walk on the disk. -/
theorem fssoFindInDir_leads {name : List UInt8} (hname : ∀ c ∈ name, c ≠ 0)
    (hlen : name.length ≤ 255) {dv : Drive} (hsound : dv.Sound) (t : Nat) (fs : FssoFilesystem)
    (n out : UInt32) :
    Answers (fssoFindInDir dv t fs n name out) (leads dv.disk fs n [name]) := by
  rw [leads_singleton]
  by_cases hboth : n < fs.superblock.totalInodes ∧
      (inodeAt dv.disk (readerInodeAddr n)).type = fssoTypeDir
  · have hanswer := fssoFindInDir_answers hname hsound t hboth.1 hboth.2 out
      (k := fssoMaxFilename + 1) (Nat.lt_succ_of_le hlen)
    rw [runOnEntries_eq] at hanswer
    rwa [if_pos hboth]
  · rw [if_neg hboth]
    obtain ⟨t', hreply⟩ := fssoFindInDir_sound hname hlen hsound t fs n out
    rw [hreply]
    by_cases hrange : fs.superblock.totalInodes ≤ n
    · rw [if_pos hrange]
      exact (by decide : (-1 : Int) ≠ 0)
    · have htype : (inodeAt dv.disk (readerInodeAddr n)).type ≠ fssoTypeDir :=
        fun hdir => hboth ⟨UInt32.not_le.mp hrange, hdir⟩
      rw [if_neg hrange, if_pos htype]
      exact (by decide : (-2 : Int) ≠ 0)

/-- The walk of the code is the walk on the disk. -/
theorem walk_eq_leads {dv : Drive} (hsound : dv.Sound) (t : Nat) (fs : FssoFilesystem)
    {ws : List (List UInt8)} (hnames : ∀ w ∈ ws, (∀ c ∈ w, c ≠ 0) ∧ w.length ≤ 255)
    (n : UInt32) : walk dv t fs n ws = leads dv.disk fs n ws := by
  induction ws generalizing n with
  | nil => rfl
  | cons w ws ih =>
      obtain ⟨hnul, hlen⟩ := hnames w List.mem_cons_self
      have hanswer := fssoFindInDir_leads hnul hlen hsound t fs n 0
      have hrest := fun m => ih (fun v hv => hnames v (List.mem_cons_of_mem w hv)) m
      have hsplit : leads dv.disk fs n (w :: ws) =
          (leads dv.disk fs n [w]).bind fun m => leads dv.disk fs m ws := by
        rw [leads_singleton, leads]
        split <;> rfl
      rw [walk, hsplit]
      cases hstep : leads dv.disk fs n [w] with
      | none =>
          rw [hstep] at hanswer
          exact if_neg hanswer
      | some m =>
          rw [hstep] at hanswer
          rw [if_pos hanswer.1, hanswer.2, hrest, Option.bind_some]

/-- Resolution follows the directories of the disk. -/
theorem fssoResolvePath_leads {dv : Drive} (hsound : dv.Sound) (t : Nat) (fs : FssoFilesystem)
    {path : List UInt8} (hpath : ∀ c ∈ path, c ≠ 0) (out : UInt32) :
    Answers (fssoResolvePath dv t fs path out)
      (leads dv.disk fs 0 ((components path).map (·.take 255))) := by
  have hnames : ∀ w ∈ (components path).map (·.take 255), (∀ c ∈ w, c ≠ 0) ∧ w.length ≤ 255 := by
    intro w hw
    obtain ⟨v, hv, rfl⟩ := List.mem_map.mp hw
    exact ⟨fun c hc => hpath c ((of_mem_words v hv).2.subset (List.mem_of_mem_take hc)),
      List.length_take_le 255 v⟩
  rw [← walk_eq_leads hsound t fs hnames]
  exact (resolveLoop_follows hsound t t fs hpath 0 out).answers

/-- A path whose components lead nowhere is refused. -/
theorem fssoResolvePath_fails {dv : Drive} (hsound : dv.Sound) (t : Nat) (fs : FssoFilesystem)
    {path : List UInt8} (hpath : ∀ c ∈ path, c ≠ 0) (out : UInt32)
    (hlost : leads dv.disk fs 0 ((components path).map (·.take 255)) = none) :
    (fssoResolvePath dv t fs path out).ret ≠ 0 := by
  have hanswer := fssoResolvePath_leads hsound t fs hpath out
  rwa [hlost] at hanswer

/-! ## When they agree -/

section Agreement

variable {dv : Drive} (hsound : dv.Sound) (t t' : Nat) (fs : FssoFilesystem)
  (hroot : (inodeAt dv.disk (readerInodeAddr 0)).type = fssoTypeDir) {s : List UInt8}
  (hnul : ∀ c ∈ s, c ≠ 0) (a b : UInt32)

include hsound hnul

/-- A name with a dot. -/
theorem namesAgree_of_dot (hlen : s.length ≤ 255) :
    NamesAgree (fssoResolvePath dv t fs s a) (fssoFindInDir dv t' fs 0 s b) ↔
      leads dv.disk fs 0 (components s) = leads dv.disk fs 0 [s] := by
  have hpath := fssoResolvePath_leads hsound t fs hnul a
  have hcut : (components s).map (·.take 255) = components s := by
    refine (List.map_congr_left (g := id) fun w hw => ?_).trans (List.map_id _)
    exact List.take_of_length_le ((of_mem_words w hw).2.length_le.trans hlen)
  rw [hcut] at hpath
  exact namesAgree_iff hpath (fssoFindInDir_leads hnul hlen hsound t' fs 0 b)

/-- A name without a dot is one component. -/
theorem fssoResolvePath_of_no_dot (hne : s ≠ []) (hdot : dot ∉ s) :
    Answers (fssoResolvePath dv t fs s a) (leads dv.disk fs 0 [s.take 255]) := by
  have hpath := fssoResolvePath_leads hsound t fs hnul a
  rwa [components, words_run hne hdot] at hpath

include hroot

/-- A name without a dot that is too long for an entry. -/
theorem namesAgree_of_long (hne : s ≠ []) (hdot : dot ∉ s) :
    NamesAgree (fssoResolvePath dv t fs s a) (fssoFindInDir dv t' fs 0 s b) ↔
      fs.superblock.totalInodes = 0 ∨
        ∀ m, FirstEntry (dirEntries dv.disk 0) (s.take 255) m ↔
          FirstEntry (runOnEntries dv.disk (dv.stack (t' + 1)) (s.length + 1) 0) s m := by
  have hpath := fssoResolvePath_of_no_dot hsound t fs hnul a hne hdot
  rw [leads_singleton] at hpath
  by_cases htotal : fs.superblock.totalInodes = 0
  · have hrange : ¬ (0 < fs.superblock.totalInodes) := by rw [htotal]; decide
    obtain ⟨t'', hreply⟩ := fssoFindInDir_runOn hnul (Nat.lt_succ_self _) hsound t' fs 0 b
    rw [if_neg (fun hboth => hrange hboth.1)] at hpath
    rw [if_pos (UInt32.not_lt.mp hrange)] at hreply
    have hfails : Answers (fssoFindInDir dv t' fs 0 s b) none := by
      rw [hreply]
      exact (by decide : (-1 : Int) ≠ 0)
    exact iff_of_true ((namesAgree_iff hpath hfails).mpr rfl) (Or.inl htotal)
  · have hrange : 0 < fs.superblock.totalInodes := UInt32.pos_iff_ne_zero.mpr htotal
    have hnul' : ∀ c ∈ s.take 255, c ≠ 0 := fun c hc => hnul c (List.mem_of_mem_take hc)
    rw [if_pos ⟨hrange, hroot⟩] at hpath
    rw [namesAgree_iff hpath
      (fssoFindInDir_answers hnul hsound t' hrange hroot b (Nat.lt_succ_self _)),
      or_iff_right htotal, Option.ext_iff]
    simp only [lookup_eq_some_iff hnul, lookup_eq_some_iff hnul']

/-- **The two ways of naming a root file.** -/
theorem namesAgree_iff_consistent (hne : s ≠ []) (hdom : dot ∉ s ∨ s.length ≤ 255) :
    NamesAgree (fssoResolvePath dv t fs s a) (fssoFindInDir dv t' fs 0 s b) ↔
      Consistent dv.disk (dv.stack (t' + 1)) fs s := by
  by_cases hdot : dot ∈ s
  · rw [Consistent, if_pos hdot]
    exact namesAgree_of_dot hsound t t' fs hnul a b (hdom.resolve_left (not_not_intro hdot))
  · rw [Consistent, if_neg hdot]
    by_cases hlen : s.length ≤ 255
    · have hpath := fssoResolvePath_of_no_dot hsound t fs hnul a hne hdot
      rw [List.take_of_length_le hlen] at hpath
      have hsearch := fssoFindInDir_leads hnul hlen hsound t' fs 0 b
      exact iff_of_true ((namesAgree_iff hpath hsearch).mpr rfl) (Or.inl hlen)
    · rw [or_iff_right hlen]
      exact namesAgree_of_long hsound t t' fs hroot hnul a b hne hdot

end Agreement

/-- Where every name in use ends inside its field, a longer name runs on nowhere, and the
two ways agree on it exactly if no entry has its front part. -/
theorem consistent_long_iff {disk : Bytes} (behind : Bytes) {fs : FssoFilesystem}
    {s : List UInt8} (hnul : ∀ c ∈ s, c ≠ 0) (hdot : dot ∉ s) (hlong : 255 < s.length)
    (htotal : fs.superblock.totalInodes ≠ 0)
    (hends : ∀ e ∈ dirEntries disk 0, e.name.length ≤ 255) :
    Consistent disk behind fs s ↔ ∀ e ∈ dirEntries disk 0, e.name ≠ s.take 255 := by
  have hnone : ∀ m, ¬ FirstEntry (runOnEntries disk behind (s.length + 1) 0) s m := by
    rw [runOnEntries_of_ends behind hends (by omega)]
    intro m hfirst
    obtain ⟨before, e, after, hsplit, _, hname, _⟩ := hfirst
    have hmem : e ∈ dirEntries disk 0 := by
      rw [hsplit]
      exact List.mem_append_right _ List.mem_cons_self
    have hlen := hends e hmem
    rw [hname] at hlen
    omega
  have hnul' : ∀ c ∈ s.take 255, c ≠ 0 := fun c hc => hnul c (List.mem_of_mem_take hc)
  have hcName : (∀ e ∈ dirEntries disk 0, e.name ≠ s.take 255) ↔
      lookup (dirEntries disk 0) (s.take 255) = none := by
    rw [lookup_eq_none, cName_of_nulFree hnul']
  rw [Consistent, if_neg hdot, or_iff_right (Nat.not_le.mpr hlong), or_iff_right htotal, hcName,
    Option.eq_none_iff_forall_ne_some]
  simp only [hnone, iff_false, ← lookup_eq_some_iff hnul', ne_eq]

/-! ## The images of `mkfsso` -/

/-- The root directory has one block. -/
theorem Layout.leadBlocks_root {disk : Bytes} (h : Layout disk) :
    leadBlocks (inodePtrs disk 0) = [11] := by
  rw [inodePtrs, h.rootInode]
  decide

/-- The entries of the root directory on the image of a short run. -/
theorem Lists.dirEntries_eq {disk : Bytes} (h : Layout disk) {entries : List RootEntry}
    (hlists : Lists disk 11264 entries) : dirEntries disk 0 = entries := by
  have hroom := hlists.room
  have hslots : ∀ j fuel, j + fuel = 3 →
      (List.range' j fuel).filterMap (slotEntry (fssoMaxFilename + 1) disk 11264) =
        entries.drop j := by
    intro j fuel
    induction fuel generalizing j with
    | zero =>
        intro hj
        rw [List.drop_eq_nil_of_le (by omega)]
        rfl
    | succ fuel ih =>
        intro hj
        rw [List.range'_succ]
        by_cases hused : j < entries.length
        · have hmem := List.getElem_mem hused
          have hstring := hlists.string _ hmem
          have hslot : slotEntry (fssoMaxFilename + 1) disk 11264 j = some entries[j] := by
            rw [slotEntry, hlists.inode j hused, if_neg (hlists.used _ hmem),
              (hlists.name j hused).charsAt_eq hstring.1 (Nat.lt_succ_of_le hstring.2)]
          rw [List.filterMap_cons_some hslot, ih (j + 1) (by omega),
            List.drop_eq_getElem_cons hused]
        · have hslot : slotEntry (fssoMaxFilename + 1) disk 11264 j = none := by
            rw [slotEntry, if_pos (hlists.free j (by omega) (by omega))]
          rw [List.filterMap_cons_none hslot, ih (j + 1) (by omega),
            List.drop_eq_nil_of_le (by omega), List.drop_eq_nil_of_le (by omega)]
  rw [dirEntries, h.leadBlocks_root, List.flatMap_singleton, blockEntries, List.range_eq_range']
  exact hslots 0 3 rfl

/-- The inodes of the listed files are files. -/
theorem Reaches.fileTypes {calls : List AddCall} {disk : Bytes} (h : Reaches calls disk)
    (hlen : calls.length ≤ 106) :
    ∀ k, k < min 3 calls.length → disk (inodeAddr (k + 1) + 12) = fssoTypeFile := by
  induction h with
  | format => exact fun k hk => absurd hk (by simp)
  | @call calls disk disk' c r before hrun ih =>
      intro k hk
      rw [List.length_cons] at hlen hk
      by_cases hnew : k = calls.length
      · rw [hnew]
        exact before.inv.added_type (by omega) hrun
      · obtain ⟨bs, hfoot⟩ := before.inv.footprint (before.tidy (by omega)) (by omega) hrun
        have hkept : FileKept disk disk' (k + 1) k := hfoot.fileKept (before.tidy (by omega))
          before.inv (by omega) (by omega) (by omega) (by omega) (by omega)
        rw [hkept.record _ (by omega) (by simp only [inodeSize]; omega)]
        exact ih (by omega) k (by omega)

theorem lookup_mem {entries : List RootEntry} {name : List UInt8} {m : UInt32}
    (h : lookup entries name = some m) : ∃ e ∈ entries, e.name = cName name ∧ e.inode = m := by
  obtain ⟨e, hfind, hinode⟩ := Option.map_eq_some_iff.mp h
  exact ⟨e, List.mem_of_find?_eq_some hfind, by simpa using List.find?_some hfind, hinode⟩

/-- A listed file has an inode number of its own, and the first 13 inodes are where the
reader looks for them. -/
theorem rootEntries_inode {calls : List AddCall} {e : RootEntry} (he : e ∈ rootEntries calls) :
    ∃ k, ∃ hk : k < (rootEntries calls).length, (rootEntries calls)[k] = e ∧
      e.inode = UInt32.ofNat (k + 1) ∧ readerInodeAddr e.inode = inodeAddr (k + 1) := by
  obtain ⟨k, hk, hentry⟩ := List.getElem_of_mem he
  have hcount := length_rootEntries calls
  have hk' : k < calls.reverse.length := by rw [List.length_reverse]; omega
  have hinode : e.inode = UInt32.ofNat (k + 1) := by
    rw [← hentry, getElem_rootEntries calls hk hk']
  have hnat : e.inode.toNat = k + 1 := by
    rw [hinode, UInt32.toNat_ofNat']
    omega
  refine ⟨k, hk, hentry, hinode, ?_⟩
  have haddr := inodeAddr_eq (k + 1)
  rw [readerInodeAddr_eq, hnat]
  omega

/-- Different entries have different inodes. -/
theorem rootEntries_inode_inj {calls : List AddCall} {e e' : RootEntry}
    (he : e ∈ rootEntries calls) (he' : e' ∈ rootEntries calls) (hinode : e'.inode = e.inode) :
    e' = e := by
  obtain ⟨k, hk, hentry, hnumber, _⟩ := rootEntries_inode he
  obtain ⟨k', hk', hentry', hnumber', _⟩ := rootEntries_inode he'
  have hcount := length_rootEntries calls
  have hnat := congrArg UInt32.toNat (hnumber'.symm.trans (hinode.trans hnumber))
  simp only [UInt32.toNat_ofNat'] at hnat
  obtain rfl : k' = k := by omega
  rw [← hentry', ← hentry]

/-- A file has no entries. -/
theorem Reaches.leads_file {calls : List AddCall} {disk : Bytes} (h : Reaches calls disk)
    (hlen : calls.length ≤ 106) (fs : FssoFilesystem) {e : RootEntry} (he : e ∈ rootEntries calls)
    (v : List UInt8) (vs : List (List UInt8)) : leads disk fs e.inode (v :: vs) = none := by
  obtain ⟨k, hk, _, _, haddr⟩ := rootEntries_inode he
  have hcount := length_rootEntries calls
  have htype : (inodeAt disk (readerInodeAddr e.inode)).type = fssoTypeFile := by
    rw [haddr]
    exact h.fileTypes hlen k (by omega)
  have hfile : fssoTypeFile ≠ fssoTypeDir := by decide
  rw [leads, if_neg (fun hboth => hfile (htype.symm.trans hboth.2))]

/-- A stored name with a dot leads somewhere else. -/
theorem Reaches.not_consistent {calls : List AddCall} {disk : Bytes} (h : Reaches calls disk)
    (hlen : calls.length ≤ 106) (behind : Bytes) {fs : FssoFilesystem}
    (htotal : fs.superblock.totalInodes = 512) {s : List UInt8} (hdot : dot ∈ s)
    (hstored : ∃ e ∈ rootEntries calls, e.name = s) : ¬ Consistent disk behind fs s := by
  have hentries : dirEntries disk 0 = rootEntries calls :=
    Lists.dirEntries_eq h.inv.layout (h.lists hlen)
  have hroot : (inodeAt disk (readerInodeAddr 0)).type = fssoTypeDir := by
    rw [h.inv.layout.rootInode]
    decide
  have hrange : 0 < fs.superblock.totalInodes := by rw [htotal]; decide
  have hlists := h.lists hlen
  obtain ⟨stored, hmem, hname⟩ := hstored
  have hnul : ∀ c ∈ s, c ≠ 0 := hname ▸ (hlists.string stored hmem).1
  obtain ⟨m, hfound⟩ : ∃ m, lookup (rootEntries calls) s = some m := by
    apply Option.ne_none_iff_exists'.mp
    intro hnone
    exact lookup_eq_none.mp hnone stored hmem (hname.trans (cName_of_nulFree hnul).symm)
  obtain ⟨e, he, hnamed, hinode⟩ := lookup_mem hfound
  rw [cName_of_nulFree hnul] at hnamed
  rw [Consistent, if_pos hdot, leads_singleton, if_pos ⟨hrange, hroot⟩, hentries, hfound]
  cases hcomp : components s with
  | nil =>
      -- Nothing but dots stands for the root itself.
      rw [leads, Option.some.injEq]
      intro hzero
      exact hlists.used e he (hinode.trans hzero.symm)
  | cons w ws =>
      obtain ⟨hclean, hsub⟩ := of_mem_words w (hcomp ▸ List.mem_cons_self : w ∈ components s)
      have hw : ∀ c ∈ w, c ≠ 0 := fun c hc => hnul c (hsub.subset hc)
      rw [leads, if_pos ⟨hrange, hroot⟩, hentries]
      cases hfirst : lookup (rootEntries calls) w with
      | none => exact fun hsome => by cases hsome
      | some m' =>
          obtain ⟨e', he', hnamed', hinode'⟩ := lookup_mem hfirst
          rw [cName_of_nulFree hw] at hnamed'
          rw [Option.bind_some]
          cases ws with
          | nil =>
              rw [leads, Option.some.injEq]
              intro hsame
              have hentry : e' = e :=
                rootEntries_inode_inj he he' (hinode'.trans (hsame.trans hinode.symm))
              have hws : w = s := by
                rw [← hnamed', ← hnamed, hentry]
              exact hclean (hws ▸ hdot)
          | cons v vs =>
              rw [← hinode', h.leads_file hlen fs he' v vs]
              exact fun hsome => by cases hsome

/-- **The two ways of naming a root file.**  On a name without a dot, and on one that fits
an entry, they agree exactly if the disk is consistent for it; and no image of a short run
of `fsso_add_file` is, for a stored name with a dot. -/
theorem rootNames_agree_iff (dv : Drive) (hsound : dv.Sound) (t t' : Nat) (fs : FssoFilesystem)
    (hroot : (inodeAt dv.disk (readerInodeAddr 0)).type = fssoTypeDir) (s : List UInt8)
    (hne : s ≠ []) (hnul : ∀ c ∈ s, c ≠ 0) (hdom : dot ∉ s ∨ s.length ≤ 255) (a b : UInt32) :
    (NamesAgree (fssoResolvePath dv t fs s a) (fssoFindInDir dv t' fs 0 s b) ↔
      Consistent dv.disk (dv.stack (t' + 1)) fs s) ∧
    ∀ calls, Reaches calls dv.disk → calls.length ≤ 106 →
      fs.superblock.totalInodes = word32 dv.disk 16 → dot ∈ s →
      (∃ e ∈ rootEntries calls, e.name = s) →
      ¬ NamesAgree (fssoResolvePath dv t fs s a) (fssoFindInDir dv t' fs 0 s b) := by
  have hiff := namesAgree_iff_consistent hsound t t' fs hroot hnul a b hne hdom
  refine ⟨hiff, fun calls hreach hlen htotal hdot hstored => ?_⟩
  rw [hiff]
  exact hreach.not_consistent hlen _ (htotal.trans hreach.inv.layout.totalInodes) hdot hstored

/-- The image of `hello.txt` holds a stored name with a dot. -/
theorem helloDisk_stored : Reaches [helloCall] helloDisk ∧ dot ∈ helloCall.name ∧
    ∃ e ∈ rootEntries [helloCall], e.name = helloCall.name :=
  ⟨Reaches.call Reaches.format helloCall_run, by simp [helloCall, dot],
    (mem_rootEntries (by decide) helloCall.name).mpr ⟨helloCall, List.mem_singleton_self _, rfl⟩⟩

theorem helloDisk_root : (inodeAt helloDisk (readerInodeAddr 0)).type = fssoTypeDir := by
  rw [helloDisk_stored.1.inv.layout.rootInode]
  decide

/-- The two ways agree on a stored name without a dot. -/
theorem rootNames_agree_iff_stored : ∃ disk, Reaches [emptyCall] disk ∧
    NamesAgree (fssoResolvePath ⟨zeroMemory, disk, fun _ => true⟩ 0 formattedFs [97] 0)
      (fssoFindInDir ⟨zeroMemory, disk, fun _ => true⟩ 0 formattedFs 0 [97] 0) ∧
    (fssoFindInDir ⟨zeroMemory, disk, fun _ => true⟩ 0 formattedFs 0 [97] 0).ret = 0 := by
  obtain ⟨disk, hreach⟩ : ∃ disk, Reaches [emptyCall] disk := exists_reaches (emptyCalls_small 1)
  have hlayout := hreach.inv.layout
  have hsound : (⟨zeroMemory, disk, fun _ => true⟩ : Drive).Sound := fun _ => rfl
  have hroot : (inodeAt disk (readerInodeAddr 0)).type = fssoTypeDir := by
    rw [hlayout.rootInode]
    decide
  have hdot : dot ∉ [97] := by decide
  have hlen : [97].length ≤ 255 := by decide
  have hconsistent : ∀ stack, Consistent disk stack formattedFs [97] := by
    intro stack
    rw [Consistent, if_neg hdot]
    exact Or.inl hlen
  refine ⟨disk, hreach, ?_, ?_⟩
  · exact (rootNames_agree_iff ⟨zeroMemory, disk, fun _ => true⟩ hsound 0 0 formattedFs hroot [97]
      (by simp) (by simp) (Or.inl hdot) 0 0).1.mpr (hconsistent _)
  · have hfound : lookup (rootEntries [emptyCall]) [97] = some 1 := by decide
    rw [fssoFindInDir_root hsound hlayout (hreach.lists (by decide)) (by decide) 0 [97] 0, hfound]

/-- The name that `mkfsso` stores its first file under is found but not resolved. -/
theorem hello_not_resolved :
    helloCall.run mkfssoFormat = some (0, helloDisk) ∧
    (inodeAt helloDisk (readerInodeAddr 0)).type = fssoTypeDir ∧
    (fssoFindInDir helloDrive 0 formattedFs 0 helloCall.name 0).ret = 0 ∧
    (fssoResolvePath helloDrive 0 formattedFs helloCall.name 0).ret ≠ 0 := by
  have hreach := helloDisk_stored.1
  have hsound : helloDrive.Sound := fun _ => rfl
  have hnul : ∀ c ∈ helloCall.name, c ≠ 0 := by simp [helloCall]
  have hentries : dirEntries helloDisk 0 = rootEntries [helloCall] :=
    Lists.dirEntries_eq hreach.inv.layout (hreach.lists (by decide))
  have hrange : 0 < formattedFs.superblock.totalInodes := by decide
  refine ⟨helloCall_run, helloDisk_root, ?_, ?_⟩
  · have hfound : leads helloDisk formattedFs 0 [helloCall.name] = some 1 := by
      rw [leads_singleton, if_pos ⟨hrange, helloDisk_root⟩, hentries]
      decide
    have hanswer := fssoFindInDir_leads hnul (by decide) hsound 0 formattedFs 0 0
    rw [show helloDrive.disk = helloDisk from rfl, hfound] at hanswer
    exact hanswer.1
  · have hmissing : leads helloDisk formattedFs 0 ((components helloCall.name).map (·.take 255)) =
        none := by
      have hcomp : (components helloCall.name).map (·.take 255) =
          [[104, 101, 108, 108, 111], [116, 120, 116]] := by decide
      have hfirst : lookup (rootEntries [helloCall]) [104, 101, 108, 108, 111] = none := by decide
      rw [hcomp, leads, if_pos ⟨hrange, helloDisk_root⟩, hentries, hfirst]
      rfl
    exact fssoResolvePath_fails hsound 0 formattedFs hnul 0 hmissing

end Fsso
