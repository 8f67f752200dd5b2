import SimplrOS.Firmware

/-!
# What the boot loader keeps to

One proof outline of `efi_main` against every firmware.  Its assertions say what the
boot loader knows: which pointers it has been given, which blocks and files are its own,
and what its memory holds, first the size of the file, then the file, then the loaded
segments as well.  All of this lasts whatever the firmware does on its own account.

The outline shows where the source takes a risk: the mode is read through `Gop` even if
there is none, and the block for the file information is used without a check.  All else
holds unconditionally, and what the kernel is handed over holds unless an allocation
has failed.
-/

namespace Loader

open ByteStore History Interaction

/-! ## Assertions -/

/-- Every segment of the file is in place. -/
structure Placed (file mem : Bytes) : Prop where
  content : ∀ i k, IsLoad file i → k < (phdr file i).filesz.toNat →
    mem ((phdr file i).vaddr.toNat + k) = file ((phdr file i).offset.toNat + k)
  zeros : ∀ i k, IsLoad file i → (phdr file i).filesz.toNat ≤ k → k < (phdr file i).memsz.toNat →
    mem ((phdr file i).vaddr.toNat + k) = 0

/-- What the memory of the boot loader holds. -/
inductive Content
  | unknown
  | info (buffer : UInt64)
  | kernel (buffer : UInt64)
  | loaded (buffer : UInt64)

/-- The block holds the file. -/
structure HoldsFile (file : Bytes) (size : Nat) (pools : List Block) (mem : Bytes)
    (buffer : UInt64) : Prop where
  block : ∃ n, n.toNat = size ∧ (buffer, n) ∈ pools
  bytes : ∀ k, k < size → mem (buffer.toNat + k) = file k

/-- What is known about the memory holds. -/
def Content.Holds (file : Bytes) (size : Nat) (pools : List Block) (mem : Bytes) : Content → Prop
  | .unknown => True
  | .info buffer => (buffer, fileInfoSize) ∈ pools ∧ (load64 mem (buffer + 8)).toNat = size
  | .kernel buffer => HoldsFile file size pools mem buffer
  | .loaded buffer => HoldsFile file size pools mem buffer ∧ Placed file mem

/-- A block that is nobody else's. -/
structure Own (file : Bytes) (b : Block) : Prop where
  inside : b.1.toNat + b.2.toNat ≤ 2 ^ 64
  apart : ∀ x, b.Contains x → ¬ Target file x

/-- What the boot loader knows: about the firmware, about the block that it has
allocated last, and about the blocks in use and what they hold. -/
structure Known where
  exited : Bool
  headless : Bool
  starved : Bool
  interfaces : List UInt64
  files : List UInt64
  spare : Option Block
  pools : List Block
  content : Content
  size : Option UInt64
  mode : Option BootInfo
  entry : Option UInt64

/-- Nothing is known yet. -/
def Known.start : Known where
  exited := false
  headless := false
  starved := false
  interfaces := []
  files := []
  spare := none
  pools := []
  content := .unknown
  size := none
  mode := none
  entry := none

/-- One more interface pointer has been given out. -/
def Known.given (k : Known) (p : UInt64) : Known := { k with interfaces := p :: k.interfaces }

/-- The block that has been allocated last, if any, is the one in use. -/
def Known.use (k : Known) (c : Content) : Known :=
  { k with spare := none, pools := k.spare.toList, content := c }

/-- What holds as long as no allocation has failed. -/
structure Sound (file : Bytes) (size : Nat) (k : Known) (s : Machine) : Prop where
  own : ∀ b ∈ k.pools, Own file b
  apart : ∀ b ∈ k.spare, Own file b ∧ ∀ x, b.Contains x → ∀ b' ∈ k.pools, ¬ b'.Contains x
  content : k.content.Holds file size k.pools s.mem
  size : ∀ n ∈ k.size, n.toNat = size
  mode : ∀ m ∈ k.mode, s.headless = false → m = s.mode
  entry : ∀ e ∈ k.entry, e = word64 file 24

/-- What is known holds of the machine. -/
structure Knows (file : Bytes) (size : Nat) (k : Known) (s : Machine) : Prop where
  exited : s.exited = k.exited
  headless : s.headless = k.headless
  starved : k.starved = true → s.starved = true
  interfaces : ∀ p ∈ k.interfaces, p ∈ s.interfaces
  files : ∀ f ∈ k.files, f ∈ s.files
  spare : ∀ b ∈ k.spare, b ∈ s.pools
  pools : ∀ b ∈ k.pools, b ∈ s.pools
  sound : s.starved = false → Sound file size k s

/-- A block in use, or no block after an allocation has failed. -/
def Machine.Given (s : Machine) (buffer n : UInt64) : Prop :=
  (buffer, n) ∈ s.pools ∨ (buffer = 0 ∧ s.starved = true)

/-- The file in a block in use; it is all there unless an allocation has failed. -/
def Machine.Kernel (file : Bytes) (size : Nat) (s : Machine) (buffer : UInt64) : Prop :=
  (∃ n, (buffer, n) ∈ s.pools) ∧
    (s.starved = false → HoldsFile file size s.pools s.mem buffer)

/-- What each call may rely on. -/
def Allowed (file : Bytes) (size : Nat) (still : Prop) (imageHandle : UInt64) (s : Machine) :
    BootCall → Prop
  | .print _ _ => s.exited = false
  | .handleProtocol handle protocol =>
      s.exited = false ∧ (protocol = .loadedImage → handle = imageHandle)
  | .deviceHandle p => s.exited = false ∧ p ∈ s.interfaces
  | .openVolume p => s.exited = false ∧ p ∈ s.interfaces
  | .openFile p _ => s.exited = false ∧ p ∈ s.interfaces
  | .allocatePool _ => s.exited = false
  | .getInfo f n buffer => s.exited = false ∧ f ∈ s.files ∧ s.Given buffer n
  | .fileSize info => s.exited = false ∧ s.Given info fileInfoSize
  | .freePool buffer => s.exited = false ∧ ∃ n, s.Given buffer n
  | .readFile f n buffer => s.exited = false ∧ f ∈ s.files ∧ (buffer, n) ∈ s.pools
  | .close f => s.exited = false ∧ f ∈ s.files
  | .checkMagic kernel => s.exited = false ∧ s.Kernel file size kernel
  | .loadSegments kernel => s.exited = false ∧ s.Kernel file size kernel
  | .locateProtocol => s.exited = false
  | .setMode p => s.exited = false ∧ p ∈ s.interfaces
  | .bytesAt address count => s.exited = false ∧ address = 0x100000 ∧ count = 4
  | .readMode gop =>
      s.exited = false ∧ (gop = none ↔ s.headless = true) ∧ ∀ p ∈ gop, p ∈ s.interfaces
  | .entryPoint kernel => s.exited = false ∧ s.Kernel file size kernel
  | .getMemoryMap n buffer => s.exited = false ∧ (buffer = 0 ∨ (buffer, n) ∈ s.pools)
  | .exitBootServices handle key =>
      s.exited = false ∧ handle = imageHandle ∧ (still → key = s.key)
  | .kernelStart entry info =>
      s.exited = true ∧ (s.starved = false → Placed file s.mem ∧ entry = word64 file 24 ∧
        (s.headless = false → info = s.mode))

/-- A return to the firmware reports an error and finds the boot services there. -/
def Post : Exit → Machine → Prop
  | .returned status, s => efiError status = true ∧ s.exited = false
  | .looping, s => s.exited = true

/-! ## What lasts -/

section Last

variable {file : Bytes} {size : Nat} {k : Known} {s s' : Machine}

/-- The firmware may do nothing. -/
theorem Quiet.refl (file : Bytes) (s : Machine) : Quiet file s s :=
  ⟨fun _ _ => rfl, fun _ _ => rfl, rfl, fun _ h => h, rfl, rfl, rfl, rfl, rfl⟩

/-- Bytes that are known are kept with the blocks and the targets. -/
theorem Content.Holds.keep (hf : WellFormed size file) {c : Content} {pools : List Block}
    {mem mem' : Bytes} (h : c.Holds file size pools mem) (hown : ∀ b ∈ pools, Own file b)
    (hmem : ∀ x, (Target file x ∨ ∃ b ∈ pools, b.Contains x) → mem' x = mem x) :
    c.Holds file size pools mem' := by
  have hfile : ∀ {buffer}, HoldsFile file size pools mem buffer →
      HoldsFile file size pools mem' buffer := by
    intro buffer hold
    obtain ⟨⟨n, hn, hblock⟩, hbytes⟩ := hold
    refine ⟨⟨n, hn, hblock⟩, fun j hj => ?_⟩
    rw [hmem _ (Or.inr ⟨_, hblock, Nat.le_add_right _ j, by dsimp only; omega⟩)]
    exact hbytes j hj
  cases c with
  | unknown => trivial
  | info buffer =>
      obtain ⟨hblock, hsize⟩ := h
      refine ⟨hblock, ?_⟩
      have hinside := (hown _ hblock).inside
      have hlen : fileInfoSize.toNat = 600 := rfl
      have height : (8 : UInt64).toNat = 8 := rfl
      dsimp only at hinside
      have haddr : (buffer + 8).toNat = buffer.toNat + 8 := by
        rw [UInt64.toNat_add]
        omega
      have hsame : load64 mem' (buffer + 8) = load64 mem (buffer + 8) := by
        rw [load64, load64, haddr]
        refine word64_congr fun x hlo hhi => hmem x (Or.inr ⟨_, hblock, ?_, ?_⟩)
        · dsimp only
          omega
        · dsimp only
          omega
      rw [hsame]
      exact hsize
  | kernel buffer => exact hfile h
  | loaded buffer =>
      obtain ⟨hold, hcontent, hzeros⟩ := h
      refine ⟨hfile hold, ?_, ?_⟩
      · intro i j hi hj
        have hsizes := hf.sizes i hi
        rw [hmem _ (Or.inl ⟨i, hi, Phdr.covers_add (by omega)⟩)]
        exact hcontent i j hi hj
      · intro i j hi hlo hj
        rw [hmem _ (Or.inl ⟨i, hi, Phdr.covers_add hj⟩)]
        exact hzeros i j hi hlo hj

/-- What is known lasts whatever the firmware does on its own account. -/
theorem Knows.quiet (hf : WellFormed size file) (h : Knows file size k s)
    (hquiet : Quiet file s s') : Knows file size k s' where
  exited := hquiet.exited.trans h.exited
  headless := hquiet.headless.trans h.headless
  starved := fun hk => hquiet.starved.trans (h.starved hk)
  interfaces := fun p hp => hquiet.interfaces p (h.interfaces p hp)
  files := by
    rw [hquiet.files]
    exact h.files
  spare := by
    rw [hquiet.pools]
    exact h.spare
  pools := by
    rw [hquiet.pools]
    exact h.pools
  sound := by
    rw [hquiet.starved]
    intro hfed
    have hsound := h.sound hfed
    constructor
    · exact hsound.own
    · exact hsound.apart
    · refine hsound.content.keep hf hsound.own fun x hx => ?_
      rcases hx with htarget | ⟨b, hb, hin⟩
      · exact hquiet.targets x htarget
      · exact hquiet.mem x ⟨b, h.pools b hb, hin⟩
    · exact hsound.size
    · rw [hquiet.headless, hquiet.mode]
      exact hsound.mode
    · exact hsound.entry

end Last

/-! ## Rules for the calls -/

/-- An outline of a part of `efi_main`. -/
abbrev Outline (file : Bytes) (size : Nat) (still : Prop) (imageHandle : UInt64)
    (P : Machine → Prop) (q : BootProg) : Prop :=
  Proves (firmware file size still) (Allowed file size still imageHandle) P q Post

/-- The same with some knowledge as its precondition. -/
abbrev KnownOutline (file : Bytes) (size : Nat) (still : Prop) (imageHandle : UInt64) (k : Known)
    (q : BootProg) : Prop := Outline file size still imageHandle (Knows file size k) q

section Rules

variable {file : Bytes} {size : Nat} {still : Prop} {image : UInt64} {k : Known}

/-- The firmware cannot break what is known. -/
theorem knows_stable (hf : WellFormed size file) :
    Stable (firmware file size still) (Knows file size k) :=
  fun _ _ h hmove => h.quiet hf hmove.1

/-- A call that is made with some knowledge. -/
theorem outline_call (hf : WellFormed size file) {c : BootCall} {next : c.Reply → BootProg}
    (P : c.Reply → Machine → Prop)
    (hallowed : ∀ s, Knows file size k s → Allowed file size still image s c)
    (hlive : ∀ s, Knows file size k s → ∃ r s', Effect file size s c r s')
    (heffect : ∀ s r s', Knows file size k s → Effect file size s c r s' → P r s')
    (hnext : ∀ r, Outline file size still image (P r) (next r)) :
    KnownOutline file size still image k (.call c next) := by
  refine .call P (knows_stable hf) hallowed (fun s h => ?_) (fun s r s' h hanswer => ?_) hnext
  · obtain ⟨r, s', heff⟩ := hlive s h
    refine ⟨r, s', s, ?_, heff⟩
    split
    · exact Quiet.refl file s
    · rfl
  · obtain ⟨s₁, hbefore, heff⟩ := hanswer
    refine heffect s₁ r s' ?_ heff
    split at hbefore
    · exact h.quiet hf hbefore
    · rw [hbefore]
      exact h

/-- A message changes nothing that is known. -/
theorem outline_print {text : String} {values : List UInt64} {next : Unit → BootProg}
    (hf : WellFormed size file) (hawake : k.exited = false)
    (hnext : KnownOutline file size still image k (next ())) :
    KnownOutline file size still image k (.call (.print text values) next) := by
  refine outline_call hf (fun _ => Knows file size k) (fun s h => h.exited.trans hawake)
    (fun s _ => ⟨(), s, rfl⟩) (fun s _ s' h heff => ?_) fun _ => hnext
  have hsame : s' = s := heff
  rw [hsame]
  exact h

/-- A failure reports its error with the boot services still there. -/
theorem outline_fail {text : String} {status : UInt64} (hf : WellFormed size file)
    (hawake : k.exited = false) (herror : efiError status = true) :
    KnownOutline file size still image k (fail text status) :=
  outline_print hf hawake
    (.ret (knows_stable hf) fun _ h => ⟨herror, h.exited.trans hawake⟩)

/-- The check of a status. -/
theorem outline_check {k' : Known} {rest : BootProg} {text : String} {status : UInt64}
    (hf : WellFormed size file) (hawake : k.exited = false)
    (hrest : KnownOutline file size still image k' rest) :
    KnownOutline file size still image (if efiError status then k else k')
      (if efiError status then fail text status else rest) := by
  split
  case isTrue herror => exact outline_fail hf hawake herror
  case isFalse => exact hrest

/-- An interface pointer that has been given out, unless the call has failed. -/
theorem Knows.given {s : Machine} (h : Knows file size k s) {status p : UInt64}
    (hp : efiError status = false → p ∈ s.interfaces) :
    Knows file size (if efiError status then k else k.given p)
      s := by
  split
  case isTrue => exact h
  case isFalse herror =>
    refine { h with interfaces := fun p' hp' => ?_, sound := fun hfed => ?_ }
    · rcases List.mem_cons.mp hp' with rfl | hold
      · exact hp (Bool.not_eq_true _ ▸ herror)
      · exact h.interfaces p' hold
    · exact { h.sound hfed with }

/-- A protocol that is found is an interface given out. -/
theorem outline_handleProtocol {handle : UInt64} {protocol : Protocol}
    {next : UInt64 × UInt64 → BootProg} (hf : WellFormed size file) (hawake : k.exited = false)
    (himage : protocol = .loadedImage → handle = image)
    (hnext : ∀ r, KnownOutline file size still image (if efiError r.1 then k else k.given r.2)
      (next r)) :
    KnownOutline file size still image k (.call (.handleProtocol handle protocol) next) := by
  refine outline_call hf _ (fun s h => ⟨h.exited.trans hawake, himage⟩)
    (fun s _ => ⟨(efiLoadError, 0), s, fun h => ?_, rfl⟩) (fun s r s' h heff => ?_) hnext
  · exact absurd h (by decide)
  · obtain ⟨hp, rfl⟩ := heff
    exact h.given hp

/-- The device is read off an interface that has been given out. -/
theorem outline_deviceHandle {p : UInt64} {next : UInt64 → BootProg} (hf : WellFormed size file)
    (hawake : k.exited = false) (hp : p ∈ k.interfaces)
    (hnext : ∀ r, KnownOutline file size still image k (next r)) :
    KnownOutline file size still image k (.call (.deviceHandle p) next) := by
  refine outline_call hf _ (fun s h => ⟨h.exited.trans hawake, h.interfaces p hp⟩)
    (fun s _ => ⟨0, s, rfl⟩) (fun s _ s' h heff => ?_) hnext
  have hsame : s' = s := heff
  rw [hsame]
  exact h

/-- The volume is opened through the file system that has been given out. -/
theorem outline_openVolume {p : UInt64} {next : UInt64 × UInt64 → BootProg}
    (hf : WellFormed size file) (hawake : k.exited = false) (hp : p ∈ k.interfaces)
    (hnext : ∀ r, KnownOutline file size still image (if efiError r.1 then k else k.given r.2)
      (next r)) :
    KnownOutline file size still image k (.call (.openVolume p) next) := by
  refine outline_call hf _ (fun s h => ⟨h.exited.trans hawake, h.interfaces p hp⟩)
    (fun s _ => ⟨(efiLoadError, 0), s, fun h => ?_, rfl⟩) (fun s r s' h heff => ?_) hnext
  · exact absurd h (by decide)
  · obtain ⟨hp, rfl⟩ := heff
    exact h.given hp

/-- A file that has been opened is one of the boot loader's files. -/
theorem outline_openFile {p : UInt64} {name : String} {next : UInt64 × UInt64 → BootProg}
    (hf : WellFormed size file) (hawake : k.exited = false) (hp : p ∈ k.interfaces)
    (hnext : ∀ r, KnownOutline file size still image
      (if efiError r.1 then k else { k with files := r.2 :: k.files }) (next r)) :
    KnownOutline file size still image k (.call (.openFile p name) next) := by
  refine outline_call hf _ (fun s h => ⟨h.exited.trans hawake, h.interfaces p hp⟩)
    (fun s _ => ⟨(efiLoadError, 0), _, rfl⟩) (fun s r s' h heff => ?_) hnext
  have hs' : s' = if efiError r.1 then s else { s with files := r.2 :: s.files } := heff
  rw [hs']
  split
  case isTrue => exact h
  case isFalse =>
    refine { h with files := fun f hin => ?_, sound := fun hfed => { h.sound hfed with } }
    rcases List.mem_cons.mp hin with rfl | hold
    · exact List.mem_cons_self
    · exact List.mem_cons_of_mem _ (h.files f hold)

/-- The block that an allocation gives. -/
def allocated (r n : UInt64) : Option Block := if r = 0 then none else some (r, n)

/-- A block that is handed out is apart from the blocks in use and from the targets. -/
theorem outline_allocatePool {n : UInt64} {next : UInt64 → BootProg} (hf : WellFormed size file)
    (hawake : k.exited = false)
    (hnext : ∀ r, KnownOutline file size still image
      { k with spare := allocated r n, starved := k.starved || r == 0 } (next r)) :
    KnownOutline file size still image k (.call (.allocatePool n) next) := by
  refine outline_call hf _ (fun s h => h.exited.trans hawake)
    (fun s _ => ⟨0, _, Or.inl ⟨rfl, rfl⟩⟩) (fun s r s' h heff => ?_) hnext
  rcases heff with ⟨rfl, rfl⟩ | ⟨hr, hfree, rfl⟩
  · refine { h with starved := fun _ => rfl, spare := fun b hb => ?_, sound := fun hfed => ?_ }
    · cases hb
    · cases hfed
  · have hspare : allocated r n = some (r, n) := if_neg hr
    refine { h with
      starved := fun hk => ?_, spare := fun b hb => ?_, pools := fun b hb => ?_
      sound := fun hfed => ?_ }
    · exact h.starved (by simpa [hr] using hk)
    · rw [hspare] at hb
      cases hb
      exact List.mem_cons_self
    · exact List.mem_cons_of_mem _ (h.pools b hb)
    · have hsound := h.sound hfed
      refine { hsound with apart := fun b hb => ?_ }
      rw [hspare] at hb
      cases hb
      exact ⟨⟨hfree.inside, hfree.targets⟩,
        fun x hx b' hb' hin => hfree.apart x hx ⟨b', h.pools b' hb', hin⟩⟩

/-- Where nothing is known about the memory, it may change. -/
theorem Knows.overwritten {s : Machine} (h : Knows file size k s) (hcontent : k.content = .unknown)
    (mem : Bytes) : Knows file size k { s with mem := mem } := by
  refine { h with sound := fun hfed => ?_ }
  refine { h.sound hfed with content := ?_ }
  rw [hcontent]
  trivial

/-- The block that has been allocated last is filled. -/
theorem Knows.filled {s : Machine} (h : Knows file size k s) {c : Content} {mem : Bytes}
    (hcontent : s.starved = false → c.Holds file size k.spare.toList mem) :
    Knows file size (k.use c) { s with mem := mem } := by
  refine { h with
    spare := fun b hb => ?_, pools := fun b hb => ?_, sound := fun hfed => ?_ }
  · cases hb
  · exact h.spare b (Option.mem_toList.mp hb)
  · have hsound := h.sound hfed
    refine { hsound with
      own := fun b hb => ?_, apart := fun b hb => ?_, content := hcontent hfed }
    · exact (hsound.apart b (Option.mem_toList.mp hb)).1
    · cases hb

/-- What `AllocatePool` has answered. -/
theorem allocated_cases (r n : UInt64) : allocated r n = some (r, n) ∨ r = 0 := by
  by_cases hr : r = 0
  · exact Or.inr hr
  · exact Or.inl (if_neg hr)

/-- The size of the file comes into the block allocated last, if there is one. -/
theorem outline_getInfo {f buffer : UInt64} {next : UInt64 → BootProg} (hf : WellFormed size file)
    (hawake : k.exited = false) (hfile : f ∈ k.files) (hcontent : k.content = .unknown)
    (hblock : k.spare = some (buffer, fileInfoSize) ∨ (buffer = 0 ∧ k.starved = true))
    (hnext : ∀ r, KnownOutline file size still image
      (if efiError r then k else k.use (.info buffer)) (next r)) :
    KnownOutline file size still image k (.call (.getInfo f fileInfoSize buffer) next) := by
  refine outline_call hf _ (fun s h => ⟨h.exited.trans hawake, h.files f hfile, ?_⟩)
    (fun s _ => ⟨efiLoadError, s, s.mem, fun _ _ => rfl, rfl, fun h => ?_⟩)
    (fun s r s' h heff => ?_) hnext
  · exact hblock.imp (h.spare _) fun hnone => ⟨hnone.1, h.starved hnone.2⟩
  · exact absurd h (by decide)
  · obtain ⟨mem, -, rfl, hsize⟩ := heff
    split
    case isTrue => exact h.overwritten hcontent mem
    case isFalse herror =>
      rw [Bool.not_eq_true] at herror
      refine h.filled fun hfed => ?_
      rcases hblock with hspare | ⟨-, hstarved⟩
      · rw [hspare]
        exact ⟨List.mem_singleton.mpr rfl, hsize herror⟩
      · rw [h.starved hstarved] at hfed
        cases hfed

/-- The block in use, as the machine has it. -/
theorem Knows.given_block {s : Machine} (h : Knows file size k s) {buffer n : UInt64}
    (hblock : (buffer, n) ∈ k.pools ∨ (buffer = 0 ∧ k.starved = true)) : s.Given buffer n :=
  hblock.imp (h.pools _) fun hnone => ⟨hnone.1, h.starved hnone.2⟩

/-- The size is read from where it has been put. -/
theorem outline_fileSize {info : UInt64} {next : UInt64 → BootProg} (hf : WellFormed size file)
    (hawake : k.exited = false) (hcontent : k.content = .info info)
    (hblock : (info, fileInfoSize) ∈ k.pools ∨ (info = 0 ∧ k.starved = true))
    (hnext : ∀ r, KnownOutline file size still image { k with size := some r } (next r)) :
    KnownOutline file size still image k (.call (.fileSize info) next) := by
  refine outline_call hf _ (fun s h => ⟨h.exited.trans hawake, h.given_block hblock⟩)
    (fun s _ => ⟨_, s, rfl, rfl⟩) (fun s r s' h heff => ?_) hnext
  obtain ⟨rfl, rfl⟩ := heff
  refine { h with sound := fun hfed => ?_ }
  have hsound := h.sound hfed
  refine { hsound with size := fun n hn => ?_ }
  cases hn
  have hholds := hsound.content
  rw [hcontent] at hholds
  exact hholds.2

/-- A block that is given back is not in use any more. -/
theorem outline_freePool {buffer n : UInt64} {next : Unit → BootProg} (hf : WellFormed size file)
    (hawake : k.exited = false)
    (hblock : (buffer, n) ∈ k.pools ∨ (buffer = 0 ∧ k.starved = true)) (hspare : k.spare = none)
    (hnext : KnownOutline file size still image { k with pools := [], content := .unknown }
      (next ())) :
    KnownOutline file size still image k (.call (.freePool buffer) next) := by
  refine outline_call hf (fun _ => Knows file size { k with pools := [], content := .unknown })
    (fun s h => ⟨h.exited.trans hawake, n, h.given_block hblock⟩)
    (fun s _ => ⟨(), _, rfl⟩) (fun s r s' h heff => ?_) fun _ => hnext
  have hs' : s' = { s with pools := s.pools.filter fun b => b.1 ≠ buffer } := heff
  rw [hs']
  refine { h with spare := ?_, pools := ?_, sound := fun hfed => ?_ }
  · intro b hb
    rw [hspare] at hb
    cases hb
  · intro b hb
    cases hb
  · refine { h.sound hfed with own := ?_, apart := ?_, content := trivial }
    · intro b hb
      cases hb
    · intro b hb
      rw [hspare] at hb
      cases hb

/-- The block is as large as the file, so all of it is read. -/
theorem outline_readFile {f n buffer : UInt64} {next : UInt64 → BootProg}
    (hf : WellFormed size file) (hawake : k.exited = false) (hfile : f ∈ k.files)
    (hcontent : k.content = .unknown) (hspare : k.spare = some (buffer, n))
    (hsize : k.size = some n)
    (hnext : ∀ r, KnownOutline file size still image
      (if efiError r then k else k.use (.kernel buffer)) (next r)) :
    KnownOutline file size still image k (.call (.readFile f n buffer) next) := by
  refine outline_call hf _
    (fun s h => ⟨h.exited.trans hawake, h.files f hfile, h.spare _ hspare⟩)
    (fun s _ => ⟨efiLoadError, s, s.mem, fun _ _ => rfl, rfl, fun h => ?_⟩)
    (fun s r s' h heff => ?_) hnext
  · exact absurd h (by decide)
  · obtain ⟨mem, -, rfl, hread⟩ := heff
    split
    case isTrue => exact h.overwritten hcontent mem
    case isFalse herror =>
      rw [Bool.not_eq_true] at herror
      refine h.filled fun hfed => ?_
      have hlen := (h.sound hfed).size n hsize
      rw [hspare]
      exact ⟨⟨n, hlen, List.mem_singleton.mpr rfl⟩, fun j hj => hread herror j (hlen ▸ hj) hj⟩

/-- A file that is closed is not one of the boot loader's files any more. -/
theorem outline_close {f : UInt64} {next : Unit → BootProg} (hf : WellFormed size file)
    (hawake : k.exited = false) (hfile : f ∈ k.files)
    (hnext : KnownOutline file size still image { k with files := [] } (next ())) :
    KnownOutline file size still image k (.call (.close f) next) := by
  refine outline_call hf (fun _ => Knows file size { k with files := [] })
    (fun s h => ⟨h.exited.trans hawake, h.files f hfile⟩) (fun s _ => ⟨(), _, rfl⟩)
    (fun s r s' h heff => ?_) fun _ => hnext
  have hs' : s' = { s with files := s.files.filter fun g => g ≠ f } := heff
  rw [hs']
  refine { h with files := fun g hg => ?_, sound := fun hfed => { h.sound hfed with } }
  cases hg

/-- The block that holds the file. -/
def Content.IsKernel (c : Content) (buffer : UInt64) : Prop :=
  c = .kernel buffer ∨ c = .loaded buffer

/-- The block of the file holds it before and after the segments are loaded. -/
theorem Content.Holds.kernel {c : Content} {pools : List Block} {mem : Bytes} {buffer : UInt64}
    (h : c.Holds file size pools mem) (hc : c.IsKernel buffer) :
    HoldsFile file size pools mem buffer := by
  rcases hc with rfl | rfl
  · exact h
  · exact h.1

/-- The block of the file, as the machine has it. -/
theorem Knows.kernel {s : Machine} (h : Knows file size k s) {kernel n : UInt64}
    (hblock : (kernel, n) ∈ k.pools) (hcontent : k.content.IsKernel kernel) :
    s.Kernel file size kernel := by
  refine ⟨⟨n, h.pools _ hblock⟩, fun hfed => ?_⟩
  obtain ⟨⟨m, hm, hin⟩, hbytes⟩ := (h.sound hfed).content.kernel hcontent
  exact ⟨⟨m, hm, h.pools _ hin⟩, hbytes⟩

/-- The check of the file reads its block. -/
theorem outline_checkMagic {kernel n : UInt64} {next : Bool → BootProg}
    (hf : WellFormed size file) (hawake : k.exited = false) (hblock : (kernel, n) ∈ k.pools)
    (hcontent : k.content.IsKernel kernel)
    (hnext : ∀ r, KnownOutline file size still image k (next r)) :
    KnownOutline file size still image k (.call (.checkMagic kernel) next) := by
  refine outline_call hf _ (fun s h => ⟨h.exited.trans hawake, h.kernel hblock hcontent⟩)
    (fun s _ => ⟨_, s, rfl, rfl⟩) (fun s r s' h heff => ?_) hnext
  obtain ⟨-, rfl⟩ := heff
  exact h

/-- The buffer for the loop over the headers. -/
theorem Sound.buffered {s : Machine} (h : Sound file size k s) {buffer : UInt64}
    (hold : HoldsFile file size k.pools s.mem buffer) : Buffered size file buffer s.mem := by
  obtain ⟨⟨n, hn, hblock⟩, hbytes⟩ := hold
  obtain ⟨hinside, hapart⟩ := h.own _ hblock
  dsimp only at hinside
  refine ⟨by omega, hbytes, fun i j hi hj hcovers => ?_⟩
  refine hapart _ ⟨Nat.le_add_right _ j, ?_⟩ ⟨i, hi, hcovers⟩
  dsimp only
  omega

/-- **Loading.** The loop over the headers puts every segment in place. -/
theorem outline_loadSegments {kernel n : UInt64} {next : Unit → BootProg}
    (hf : WellFormed size file) (hawake : k.exited = false) (hblock : (kernel, n) ∈ k.pools)
    (hcontent : k.content = .kernel kernel)
    (hnext : KnownOutline file size still image { k with content := .loaded kernel } (next ())) :
    KnownOutline file size still image k (.call (.loadSegments kernel) next) := by
  refine outline_call hf (fun _ => Knows file size { k with content := .loaded kernel })
    (fun s h => ⟨h.exited.trans hawake, h.kernel hblock (Or.inl hcontent)⟩)
    (fun s _ => ⟨(), _, rfl⟩) (fun s r s' h heff => ?_) fun _ => hnext
  have hs' : s' = { s with mem := segmentLoop s.mem kernel 0 } := heff
  rw [hs']
  refine { h with sound := fun hfed => ?_ }
  have hsound := h.sound hfed
  have hold := hsound.content
  rw [hcontent] at hold
  have hbuffer := hsound.buffered hold
  have hloaded : Loaded file s.mem (segmentLoop s.mem kernel 0) := by
    refine segmentLoop_loaded hf hbuffer ⟨?_, ?_, fun _ _ => rfl⟩ (Nat.zero_le _)
    · intro i j hi
      cases hi
    · intro i j hi
      cases hi
  refine { hsound with content := ⟨⟨hold.block, (hloaded.buffered hbuffer).holds⟩, ?_, ?_⟩ }
  · exact fun i j hi hj => hloaded.content i j hi.1 hi hj
  · exact fun i j hi hlo hj => hloaded.zeros i j hi.1 hi hlo hj

/-- Without a graphics output there is no `Gop`. -/
theorem outline_locateProtocol {next : UInt64 × UInt64 → BootProg} (hf : WellFormed size file)
    (hawake : k.exited = false) (hmode : k.mode = none)
    (hnext : ∀ r, KnownOutline file size still image
      (if efiError r.1 then { k with headless := true } else { k.given r.2 with headless := false })
      (next r)) :
    KnownOutline file size still image k (.call .locateProtocol next) := by
  refine outline_call hf _ (fun s h => h.exited.trans hawake)
    (fun s _ => ⟨(efiLoadError, 0), _, fun h => ?_, rfl⟩) (fun s r s' h heff => ?_) hnext
  · exact absurd h (by decide)
  · obtain ⟨hp, rfl⟩ := heff
    have hblind : ∀ m ∈ k.mode, ∀ q : Prop, q := by
      rw [hmode]
      intro m hm
      cases hm
    split
    case isTrue herror =>
      refine { h with headless := herror, sound := fun hfed => ?_ }
      exact { h.sound hfed with mode := fun m hm => hblind m hm _ }
    case isFalse herror =>
      have herror : efiError r.1 = false := by simpa using herror
      refine { h with headless := herror, interfaces := fun p hp' => ?_, sound := fun hfed => ?_ }
      · rcases List.mem_cons.mp hp' with rfl | hold
        · exact hp herror
        · exact h.interfaces p hold
      · exact { h.sound hfed with mode := fun m hm => hblind m hm _ }

/-- The mode may change as long as it has not been read. -/
theorem outline_setMode {p : UInt64} {next : UInt64 → BootProg} (hf : WellFormed size file)
    (hawake : k.exited = false) (hp : p ∈ k.interfaces) (hmode : k.mode = none)
    (hnext : ∀ r, KnownOutline file size still image k (next r)) :
    KnownOutline file size still image k (.call (.setMode p) next) := by
  refine outline_call hf _ (fun s h => ⟨h.exited.trans hawake, h.interfaces p hp⟩)
    (fun s _ => ⟨0, _, s.mode, rfl⟩) (fun s r s' h heff => ?_) hnext
  obtain ⟨mode, rfl⟩ := heff
  refine { h with sound := fun hfed => { h.sound hfed with mode := fun m hm => ?_ } }
  rw [hmode] at hm
  cases hm

/-- Through an unset `Gop` anything may be read. -/
theorem outline_readMode {gop : Option UInt64} {next : BootInfo → BootProg}
    (hf : WellFormed size file) (hawake : k.exited = false)
    (hgop : gop = none ↔ k.headless = true) (hset : ∀ p ∈ gop, p ∈ k.interfaces)
    (hnext : ∀ r, KnownOutline file size still image { k with mode := some r } (next r)) :
    KnownOutline file size still image k (.call (.readMode gop) next) := by
  refine outline_call hf _ (fun s h => ⟨h.exited.trans hawake, ?_, ?_⟩)
    (fun s _ => ⟨s.mode, s, fun _ _ _ => rfl, rfl⟩) (fun s r s' h heff => ?_) hnext
  · rw [h.headless]
    exact hgop
  · exact fun p hp => h.interfaces p (hset p hp)
  · obtain ⟨hmode, rfl⟩ := heff
    refine { h with sound := fun hfed => { h.sound hfed with mode := fun m hm hhead => ?_ } }
    cases hm
    cases hp : gop with
    | none =>
        rw [h.headless, hgop.mp hp] at hhead
        cases hhead
    | some p => exact hmode p hp (h.interfaces p (hset p hp))

/-- The four bytes are whatever is there. -/
theorem outline_bytesAt {next : List UInt8 → BootProg} (hf : WellFormed size file)
    (hawake : k.exited = false) (hnext : ∀ r, KnownOutline file size still image k (next r)) :
    KnownOutline file size still image k (.call (.bytesAt 0x100000 4) next) := by
  refine outline_call hf _ (fun s h => ⟨h.exited.trans hawake, rfl, rfl⟩)
    (fun s _ => ⟨_, s, rfl, rfl⟩) (fun s r s' h heff => ?_) hnext
  obtain ⟨-, rfl⟩ := heff
  exact h

/-- The entry point is that of the file. -/
theorem outline_entryPoint {kernel n : UInt64} {next : UInt64 → BootProg}
    (hf : WellFormed size file) (hawake : k.exited = false) (hblock : (kernel, n) ∈ k.pools)
    (hcontent : k.content.IsKernel kernel)
    (hnext : ∀ r, KnownOutline file size still image { k with entry := some r } (next r)) :
    KnownOutline file size still image k (.call (.entryPoint kernel) next) := by
  refine outline_call hf _ (fun s h => ⟨h.exited.trans hawake, h.kernel hblock hcontent⟩)
    (fun s _ => ⟨_, s, rfl, rfl⟩) (fun s r s' h heff => ?_) hnext
  obtain ⟨rfl, rfl⟩ := heff
  refine { h with sound := fun hfed => ?_ }
  have hsound := h.sound hfed
  refine { hsound with entry := fun e he => ?_ }
  cases he
  have hbuffer := hsound.buffered (hsound.content.kernel hcontent)
  have hheader := hf.header
  have hoff : eEntry.toNat = 24 := rfl
  rw [load64, hbuffer.header_addr hf (by omega), hoff, word64, hbuffer.leNat_eq (by omega), word64]

/-- With no buffer the call fails; else it fills the block allocated last. -/
theorem outline_getMemoryMap {n buffer : UInt64} {next : MapReply → BootProg}
    (hf : WellFormed size file) (hawake : k.exited = false)
    (hblock : buffer = 0 ∨ k.spare = some (buffer, n))
    (hnext : ∀ r, Outline file size still image (fun s => Knows file size k s ∧ (efiError r.status
      = false → still → r.key = s.key)) (next r)) :
    KnownOutline file size still image k (.call (.getMemoryMap n buffer) next) := by
  refine outline_call hf (fun r s => Knows file size k s ∧
      (efiError r.status = false → still → r.key = s.key))
    (fun s h => ⟨h.exited.trans hawake, hblock.imp_right (h.spare _)⟩)
    (fun s _ => ⟨⟨efiLoadError, 0, 0, 0⟩, _, s.mem, fun _ _ => rfl, fun _ => ⟨?_, rfl⟩, rfl,
      fun h => ?_⟩) (fun s r s' h heff => ?_) hnext
  · decide
  · exact absurd h (by decide)
  · obtain ⟨mem, hfills, hnull, rfl, hkey⟩ := heff
    refine ⟨{ h with sound := fun hfed => ?_ }, fun herror _ => hkey herror⟩
    have hsound := h.sound hfed
    refine { hsound with content := ?_ }
    refine hsound.content.keep hf hsound.own fun x hx => ?_
    rcases hblock with hzero | hspare
    · rw [(hnull hzero).2]
    · obtain ⟨hown, hapart⟩ := hsound.apart _ hspare
      refine hfills x fun hin => ?_
      rcases hx with htarget | ⟨b, hb, hbin⟩
      · exact hown.apart x hin htarget
      · exact hapart x hin b hb hbin

/-- With the key of the current map the boot services end; else they go on. -/
theorem outline_exitBootServices {key : UInt64} {next : UInt64 → BootProg}
    (hf : WellFormed size file) (hawake : k.exited = false)
    (hnext : ∀ r, KnownOutline file size still image
      (if efiError r then k else { k with exited := true }) (next r)) :
    Outline file size still image (fun s => Knows file size k s ∧ (still → key = s.key))
      (.call (.exitBootServices image key) next) := by
  refine .call _ (fun s s' h hmove => ⟨h.1.quiet hf hmove.1, fun hstill => ?_⟩)
    (fun s h => ⟨h.1.exited.trans hawake, rfl, h.2⟩) (fun s h => ?_) (fun s r s' h hanswer => ?_)
    hnext
  · exact (h.2 hstill).trans (hmove.2 hstill).symm
  · by_cases hkey : key = s.key
    · exact ⟨0, _, s, rfl, iff_of_false Bool.false_ne_true (not_not.mpr hkey), rfl⟩
    · exact ⟨efiLoadError, _, s, rfl, iff_of_true (by decide) hkey, rfl⟩
  · obtain ⟨s₁, hbefore, -, rfl⟩ := hanswer
    have hsame : s₁ = s := hbefore
    rw [hsame]
    have h := h.1
    split
    case isTrue herror =>
      refine { h with exited := ?_, sound := fun hfed => { h.sound hfed with } }
      rw [hawake, herror]
      rfl
    case isFalse herror =>
      refine { h with exited := ?_, sound := fun hfed => { h.sound hfed with } }
      rw [Bool.not_eq_true] at herror
      rw [herror]
      rfl

/-- **Entering the kernel.** -/
theorem outline_kernelStart {kernel : UInt64} {entry : UInt64} {info : BootInfo}
    (hf : WellFormed size file) (hexited : k.exited = true) (hcontent : k.content = .loaded kernel)
    (hentry : k.entry = some entry) (hmode : k.mode = some info) :
    KnownOutline file size still image k
      (.call (.kernelStart entry info) fun _ => .ret .looping) := by
  refine outline_call hf (fun _ s => s.exited = true)
    (fun s h => ⟨h.exited.trans hexited, fun hfed => ?_⟩) (fun s _ => ⟨(), _, s.mem, rfl⟩)
    (fun s r s' h heff => ?_) fun _ => .ret (fun s s' h hmove => ?_) fun s h => h
  · have hsound := h.sound hfed
    have hold := hsound.content
    rw [hcontent] at hold
    exact ⟨hold.2, hsound.entry entry hentry, hsound.mode info hmode⟩
  · obtain ⟨mem, rfl⟩ := heff
    exact h.exited.trans hexited
  · exact hmove.1.exited.trans h

end Rules

/-! ## The outline -/

section Outlines

variable {file : Bytes} {size : Nat} {still : Prop} {image : UInt64} {k : Known}

/-- From the memory map to the kernel. -/
theorem outline_leaveFirmware {kernel : UInt64} {entry : UInt64} {info : BootInfo}
    (hf : WellFormed size file) (hawake : k.exited = false) (hcontent : k.content = .loaded kernel)
    (hentry : k.entry = some entry) (hmode : k.mode = some info) :
    KnownOutline file size still image k (leaveFirmware image entry info) := by
  refine outline_getMemoryMap hf hawake (Or.inl rfl) fun first => .pre (fun s h => h.1) ?_
  refine outline_allocatePool hf hawake fun memoryMap => ?_
  refine outline_getMemoryMap hf hawake ?_ fun map => ?_
  · by_cases hnull : memoryMap = 0
    · exact Or.inl hnull
    · exact Or.inr (if_neg hnull)
  · split
    case isTrue hmap => exact .pre (fun s h => h.1) (outline_fail hf hawake hmap)
    case isFalse hmap =>
      rw [Bool.not_eq_true] at hmap
      refine .pre (fun s h => And.intro h.1 (h.2 hmap)) ?_
      refine outline_exitBootServices hf hawake fun status => ?_
      exact outline_check hf hawake (outline_kernelStart hf rfl hcontent hentry hmode)

/-- From the graphics output on, with and without one. -/
theorem outline_startKernel {kernel n : UInt64} (hf : WellFormed size file)
    (hawake : k.exited = false) (hblind : k.mode = none) (hblock : (kernel, n) ∈ k.pools)
    (hcontent : k.content = .loaded kernel) :
    KnownOutline file size still image k (startKernel image kernel) := by
  refine outline_locateProtocol hf hawake hblind fun r => ?_
  obtain ⟨status, found⟩ := r
  have hrest : ∀ (k' : Known) (gop : Option UInt64), k'.exited = false →
      (kernel, n) ∈ k'.pools → k'.content = .loaded kernel → (gop = none ↔ k'.headless = true) →
      (∀ p ∈ gop, p ∈ k'.interfaces) →
      KnownOutline file size still image k'
        (.call (.bytesAt 0x100000 4) fun bytes =>
          .call (.print "Bytes at 0x100000: %02x %02x %02x %02x\n"
            (bytes.map UInt8.toUInt64)) fun _ =>
          .call (.readMode gop) fun info => .call (.entryPoint kernel) fun entry =>
            leaveFirmware image entry info) := by
    intro k' gop hawake hblock hcontent hgop hset
    refine outline_bytesAt hf hawake fun bytes => ?_
    refine outline_print hf hawake ?_
    refine outline_readMode hf hawake hgop hset fun info => ?_
    refine outline_entryPoint hf hawake hblock (Or.inr hcontent) fun entry => ?_
    exact outline_leaveFirmware hf hawake hcontent rfl rfl
  dsimp only
  cases hstatus : efiError status with
  | true =>
      refine hrest _ none hawake hblock hcontent (iff_of_true rfl rfl) fun p hp => ?_
      cases hp
  | false =>
      refine outline_setMode hf hawake List.mem_cons_self hblind fun _ => ?_
      refine hrest _ (some found) hawake hblock hcontent ⟨fun h => ?_, fun h => ?_⟩ fun p hp => ?_
      · cases h
      · cases h
      · cases hp
        exact List.mem_cons_self

/-- From the file information to the loaded segments. -/
theorem outline_loadFile {kernelFile : UInt64} (hf : WellFormed size file)
    (hawake : k.exited = false) (hblind : k.mode = none) (hcontent : k.content = .unknown)
    (hfile : kernelFile ∈ k.files) :
    KnownOutline file size still image k (loadFile image kernelFile) := by
  refine outline_allocatePool hf hawake fun fileInfo => ?_
  have hinfo := (allocated_cases fileInfo fileInfoSize).imp_right fun hnull =>
    And.intro hnull (show (k.starved || fileInfo == 0) = true by simp [hnull])
  have hblock := hinfo.imp_left fun hspare =>
    (show (fileInfo, fileInfoSize) ∈ (allocated fileInfo fileInfoSize).toList by simp [hspare])
  refine outline_getInfo hf hawake hfile hcontent hinfo fun status => ?_
  refine outline_check hf hawake ?_
  refine outline_fileSize hf hawake rfl hblock fun kernelSize => ?_
  refine outline_freePool hf hawake hblock rfl ?_
  refine outline_allocatePool hf hawake fun kernelBuffer => ?_
  split
  case isTrue => exact outline_fail hf hawake (by decide)
  case isFalse hbuffer =>
    have hspare : allocated kernelBuffer kernelSize = some (kernelBuffer, kernelSize) :=
      if_neg hbuffer
    have hkernel : (kernelBuffer, kernelSize) ∈ (allocated kernelBuffer kernelSize).toList := by
      simp [hspare]
    refine outline_readFile hf hawake hfile rfl hspare rfl fun status => ?_
    refine outline_check hf hawake ?_
    refine outline_close hf hawake hfile ?_
    refine outline_checkMagic hf hawake hkernel (Or.inl rfl) fun valid => ?_
    split
    case isTrue => exact outline_fail hf hawake (by decide)
    case isFalse =>
      refine outline_entryPoint hf hawake hkernel (Or.inl rfl) fun entry => ?_
      refine outline_print hf hawake ?_
      refine outline_loadSegments hf hawake hkernel rfl ?_
      exact outline_startKernel hf hawake hblind hkernel rfl

/-- **The outline of `efi_main`.** -/
theorem outline_efiMain (hf : WellFormed size file) (image : UInt64) :
    KnownOutline file size still image Known.start (efiMain image) := by
  refine outline_print hf rfl (outline_print hf rfl ?_)
  refine outline_handleProtocol hf rfl (fun _ => rfl) fun r => ?_
  obtain ⟨status, loadedImage⟩ := r
  refine outline_check hf rfl ?_
  refine outline_deviceHandle hf rfl List.mem_cons_self fun device => ?_
  refine outline_handleProtocol hf rfl (fun h => by cases h) fun r => ?_
  obtain ⟨status, fileSystem⟩ := r
  refine outline_check hf rfl ?_
  refine outline_openVolume hf rfl List.mem_cons_self fun r => ?_
  obtain ⟨status, root⟩ := r
  refine outline_check hf rfl ?_
  refine outline_openFile hf rfl List.mem_cons_self fun r => ?_
  obtain ⟨status, kernelFile⟩ := r
  refine outline_check hf rfl ?_
  exact outline_loadFile hf rfl rfl rfl List.mem_cons_self

end Outlines

/-- A machine that has not been used. -/
theorem Machine.Fresh.knows {file : Bytes} {size : Nat} {s : Machine} (h : s.Fresh) :
    Knows file size Known.start s := by
  refine ⟨h.awake, h.headless, fun hx => ?_, ?_, ?_, ?_, ?_, fun _ => ⟨?_, ?_, trivial, ?_, ?_, ?_⟩⟩
  · cases hx
  all_goals
    intro x hx
    cases hx

/-- **The boot loader and any firmware.**  In every run each call may be made where it
is made: no boot service is called once they have ended, pointers, files and blocks are
the ones that have been given out, and the kernel is entered with its segments in place,
at its entry point and with the mode of the screen, unless an allocation has failed.
`Gop` is unset exactly if there is no graphics output.  A return reports an error with
the boot services still there.  If the firmware keeps still, `ExitBootServices` never
fails.  From wherever a run has led, it can be carried to its end. -/
theorem efiMain_protocol {file : Bytes} {size : Nat} (hf : WellFormed size file) {still : Prop}
    {image : UInt64} {s s' : Machine} (hs : s.Fresh) {q : BootProg}
    {moves : List ((BootProg × Machine) × Option (Exchange BootCall BootCall.Reply))}
    (run : Run (Step (firmware file size still)) (efiMain image, s) moves (q, s')) :
    (∀ t x, (t, some x) ∈ moves → Allowed file size still image t.2 x.1) ∧
      (∀ e, q = .ret e → Post e s') ∧
      (still → ∀ t handle key r, (t, some ⟨.exitBootServices handle key, r⟩) ∈ moves →
        efiError r = false) ∧
      ∃ moves' e s'', Run (Step (firmware file size still)) (q, s') moves' (.ret e, s'') := by
  obtain ⟨⟨P, hrest, hP⟩, hallowed⟩ := (outline_efiMain hf image).run hs.knows run
  refine ⟨hallowed, fun e hdone => ?_, fun hstill t handle key r hmem => ?_, hrest.finishes hP⟩
  · subst hdone
    exact hrest.post hP
  · obtain ⟨-, -, hkey⟩ := hallowed t _ hmem
    obtain ⟨-, t', move⟩ := (run.always trivial fun _ _ _ _ _ => trivial).2 t _ hmem
    obtain ⟨s₁, hbefore, hstatus, -⟩ := move.answered
    have hsame : s₁ = t.2 := hbefore
    rw [hsame] at hstatus
    rw [← Bool.not_eq_true, hstatus, not_not]
    exact hkey hstill

/-! ## A run that enters the kernel -/

/-- A run goes on with a call during which the firmware does nothing else. -/
theorem exists_call {file : Bytes} {size : Nat} {still : Prop} {start : BootProg × Machine}
    {c : BootCall} {next : c.Reply → BootProg} {s : Machine}
    (h : ∃ moves, Run (Step (firmware file size still)) start moves (.call c next, s))
    (r : c.Reply) (s' : Machine) (heff : Effect file size s c r s') :
    ∃ moves, Run (Step (firmware file size still)) start moves (next r, s') := by
  obtain ⟨moves, run⟩ := h
  refine ⟨_, run.next (Step.call ⟨s, ?_, heff⟩)⟩
  split
  · exact Quiet.refl file s
  · rfl

/-- The sample's only segment lies below 8192. -/
theorem sampleFile_target {x : Nat} (h : Target sampleFile x) : x < 8192 := by
  obtain ⟨i, hi, hcovers⟩ := h
  rw [sampleFile_load hi] at hcovers
  have hvaddr : (phdr sampleFile 0).vaddr.toNat = 4096 := by decide
  have hmemsz : (phdr sampleFile 0).memsz.toNat = 8 := by decide
  obtain ⟨hlo, hhi⟩ := hcovers
  omega

/-- A block above the target and above the blocks in use. -/
theorem sampleFile_free {s : Machine} {b : Block} (hlo : 8192 ≤ b.1.toNat)
    (hinside : b.1.toNat + b.2.toNat ≤ 2 ^ 64)
    (hpools : ∀ b' ∈ s.pools, b'.1.toNat + b'.2.toNat ≤ b.1.toNat) :
    Block.Free sampleFile s b := by
  refine ⟨hinside, fun x hin hallocated => ?_, fun x hin htarget => ?_⟩
  · obtain ⟨hfirst, hlast⟩ := hin
    obtain ⟨b', hb', hfirst', hlast'⟩ := hallocated
    have hbelow := hpools b' hb'
    omega
  · obtain ⟨hfirst, hlast⟩ := hin
    have habove := sampleFile_target htarget
    omega

/-- A machine whose interfaces have the numbers one to four. -/
def bootMachine (mem : Bytes) (pools : List Block) (files : List UInt64) : Machine where
  mem := mem
  pools := pools
  interfaces := [1, 2, 3, 4]
  files := files
  mode := ⟨0x80000000, 1024, 768, 1024⟩
  key := 9
  exited := false
  headless := false
  starved := false

/-- The file information in its block. -/
def infoMem : Bytes := fun x => if x = 12296 then 120 else 0

/-- The file in its block as well. -/
def fileMem : Bytes :=
  fun x => if 8192 ≤ x ∧ x < 8192 + 120 then sampleFile (x - 8192) else infoMem x

theorem infoMem_fills : Fills (12288, 600) (fun _ => 0) infoMem := by
  intro x hx
  refine if_neg fun h => hx ?_
  rw [h]
  exact ⟨by decide, by decide⟩

theorem fileMem_fills : Fills (8192, 120) infoMem fileMem := fun _ hx => if_neg hx

/-- The block holds the sample. -/
theorem fileMem_file {k : Nat} (hk : k < 120) : fileMem (8192 + k) = sampleFile k := by
  have hin : 8192 ≤ 8192 + k ∧ 8192 + k < 8192 + 120 := by omega
  rw [fileMem, if_pos hin, Nat.add_sub_cancel_left]

/-- The sample is booted on a machine with a screen. -/
theorem efiMain_protocol_sample : ∃ moves s',
    Run (Step (firmware sampleFile 120 True)) (efiMain 7, bootMachine (fun _ => 0) [] []) moves
        (.ret .looping, s') ∧
      (∀ t x, (t, some x) ∈ moves → Allowed sampleFile 120 True 7 t.2 x.1) ∧ Post .looping s' := by
  have run : ∃ moves, Run (Step (firmware sampleFile 120 True))
      (efiMain 7, bootMachine (fun _ => 0) [] []) moves
      (efiMain 7, bootMachine (fun _ => 0) [] []) := ⟨_, Run.start⟩
  have run := exists_call run () _ rfl
  have run := exists_call run () _ rfl
  have run := exists_call run (0, 1) _ ⟨fun _ => by decide, rfl⟩
  have run := exists_call run 0 _ rfl
  have run := exists_call run (0, 2) _ ⟨fun _ => by decide, rfl⟩
  have run := exists_call run (0, 3) _ ⟨fun _ => by decide, rfl⟩
  have run := exists_call run (0, 5) (bootMachine (fun _ => 0) [] [5]) rfl
  -- the size of the file
  have run := exists_call run 12288 (bootMachine (fun _ => 0) [(12288, 600)] [5])
    (Or.inr ⟨by decide, sampleFile_free (by decide) (by decide) (List.forall_mem_nil _), rfl⟩)
  have run := exists_call run 0 (bootMachine infoMem [(12288, 600)] [5])
    ⟨infoMem, infoMem_fills, rfl, fun _ => by decide⟩
  have run := exists_call run 120 _ ⟨by decide, rfl⟩
  have run := exists_call run () (bootMachine infoMem [] [5]) rfl
  -- the file
  have run := exists_call run 8192 (bootMachine infoMem [(8192, 120)] [5])
    (Or.inr ⟨by decide, sampleFile_free (by decide) (by decide) (List.forall_mem_nil _), rfl⟩)
  have run := exists_call run 0 (bootMachine fileMem [(8192, 120)] [5])
    ⟨fileMem, fileMem_fills, rfl, fun _ k _ hk => fileMem_file hk⟩
  have run := exists_call run () (bootMachine fileMem [(8192, 120)] []) rfl
  have run := exists_call run true _ ⟨by decide, rfl⟩
  have run := exists_call run (load64 fileMem (8192 + eEntry)) _ ⟨rfl, rfl⟩
  have run := exists_call run () _ rfl
  have run := exists_call run () (bootMachine (segmentLoop fileMem 8192 0) [(8192, 120)] []) rfl
  generalize segmentLoop fileMem 8192 0 = mem at run
  -- the screen and the entry
  have run := exists_call run (0, 4) _ ⟨fun _ => by simp [bootMachine], rfl⟩
  have run := exists_call run 0 _ ⟨⟨0x80000000, 1024, 768, 1024⟩, rfl⟩
  have run := exists_call run _ _ ⟨rfl, rfl⟩
  have run := exists_call run () _ rfl
  have run := exists_call run ⟨0x80000000, 1024, 768, 1024⟩ _ ⟨fun _ _ _ => rfl, rfl⟩
  have run := exists_call run (load64 mem (8192 + eEntry)) _ ⟨rfl, rfl⟩
  -- the memory map, and out
  have run := exists_call run ⟨efiLoadError, 4000, 9, 48⟩ _
    ⟨mem, fun _ _ => rfl, fun _ => ⟨by decide, rfl⟩, rfl, fun _ => rfl⟩
  have run := exists_call run 16384 (bootMachine mem [(16384, 4096), (8192, 120)] [])
    (Or.inr ⟨by decide, sampleFile_free (by decide) (by decide)
      (List.forall_mem_singleton.mpr (by decide)), rfl⟩)
  have run := exists_call run ⟨0, 4000, 9, 48⟩ _
    ⟨mem, fun _ _ => rfl, fun h => absurd h (by decide), rfl, fun _ => rfl⟩
  have run := exists_call run 0 _ ⟨iff_of_false (by decide) (not_not.mpr rfl), rfl⟩
  have run := exists_call run () _ ⟨mem, rfl⟩
  obtain ⟨moves, run⟩ := run
  obtain ⟨hallowed, hpost, -⟩ := efiMain_protocol sampleFile_wellFormed ⟨rfl, rfl, rfl, rfl⟩ run
  exact ⟨moves, _, run, hallowed, hpost _ rfl⟩

end Loader
