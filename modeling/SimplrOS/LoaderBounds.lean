import SimplrOS.Loader

/-!
# What the boot loader reads

The loader knows the size of the file and never looks at it again: only the magic
is checked, and everything else is read where the numbers in the buffer say.  The
trace of a run lists every access through `ElfHeader`, `phdr` and `src` and every
computation of a header address.  It stays inside the buffer exactly if the magic
is wrong within the file or every round finds its header and its segment there.

A segment may be loaded over the buffer, so what a round finds is what the rounds
before it left.  If no segment is loaded over the headers, it is what the file says.
-/

namespace Loader

open ByteStore

/-! ## The trace -/

/-- A read of `width` bytes at an offset from a pointer, or the computation of a
header address with its product and its sum before any reduction. -/
inductive Event
  | read (base : UInt64) (off width : Nat)
  | address (product sum : Nat)

/-- Reads stay in the buffer, and none runs past the end of the address space; the
product fits an `int` and the sum a pointer. -/
def Event.Inside (kernel : UInt64) (size : Nat) : Event → Prop
  | .read base off width =>
      kernel.toNat ≤ base.toNat + off ∧ base.toNat + off + width ≤ kernel.toNat + size
  | .address product sum => product < 2 ^ 31 ∧ sum < 2 ^ 64

/-- Offset of `e_entry` in the ELF header. -/
abbrev eEntry : UInt64 := 24

/-- The reads of `copyLoop`. -/
def copyReads (mem : Bytes) (phdr dest src j : UInt64) : List Event :=
  .read phdr pFilesz.toNat 8 ::
    if _h : j < load64 mem (phdr + pFilesz) then
      .read src j.toNat 1 ::
        copyReads (put mem (dest + j).toNat (mem (src + j).toNat)) phdr dest src (j + 1)
    else []
termination_by 2 ^ 64 - j.toNat
decreasing_by exact round_lt _h

/-- The reads of `zeroLoop`. -/
def zeroReads (mem : Bytes) (phdr dest j : UInt64) : List Event :=
  .read phdr pMemsz.toNat 8 ::
    if _h : j < load64 mem (phdr + pMemsz) then
      zeroReads (put mem (dest + j).toNat 0) phdr dest (j + 1)
    else []
termination_by 2 ^ 64 - j.toNat
decreasing_by exact round_lt _h

/-- The computation of `phdrAddr`. -/
def addressEvents (mem : Bytes) (kernel : UInt64) (i : UInt16) : List Event :=
  let product := i.toNat * (load16 mem (kernel + ePhentsize)).toNat
  [.read kernel ePhoff.toNat 8, .read kernel ePhentsize.toNat 2,
    .address product (kernel.toNat + (load64 mem (kernel + ePhoff)).toNat + product)]

/-- The trace of `loadSegment`. -/
def segmentReads (mem : Bytes) (kernel : UInt64) (i : UInt16) : List Event :=
  let phdr := phdrAddr mem kernel i
  addressEvents mem kernel i ++ .read phdr 0 4 ::
    if load32 mem phdr = 1 then
      let dest := load64 mem (phdr + pVaddr)
      let src := kernel + load64 mem (phdr + pOffset)
      let copied := copyLoop mem phdr dest src 0
      .read phdr pVaddr.toNat 8 :: .read phdr pOffset.toNat 8 :: copyReads mem phdr dest src 0 ++
        .read phdr pFilesz.toNat 8 ::
          zeroReads copied phdr dest (load64 copied (phdr + pFilesz))
    else []

/-- The trace of `segmentLoop`. -/
def loopReads (mem : Bytes) (kernel : UInt64) (i : UInt16) : List Event :=
  .read kernel ePhnum.toNat 2 ::
    if _h : i < load16 mem (kernel + ePhnum) then
      segmentReads mem kernel i ++ loopReads (loadSegment mem kernel i) kernel (i + 1)
    else []
termination_by 2 ^ 16 - i.toNat
decreasing_by exact header_lt _h

/-- The trace of the magic check, which stops at the first difference. -/
def magicReads (mem : Bytes) (kernel off : UInt64) : List UInt8 → List Event
  | [] => []
  | c :: rest =>
      .read kernel off.toNat 1 ::
        if mem (kernel + off).toNat ≠ c then [] else magicReads mem kernel (off + 1) rest

/-- The four bytes an ELF file begins with. -/
abbrev elfMagic : List UInt8 := [0x7f, 69, 76, 70]

/-- The trace of `loadKernel`; the entry address is printed and used at the end. -/
def loaderReads (mem : Bytes) (kernel : UInt64) : List Event :=
  magicReads mem kernel 0 elfMagic ++
    if (loadKernel mem kernel).isSome then
      .read kernel eEntry.toNat 8 :: loopReads mem kernel 0 ++ [.read kernel eEntry.toNat 8]
    else []

/-- The run on the buffer of `size` bytes reads nothing outside of it. -/
def Contained (size : Nat) (kernel : UInt64) (mem : Bytes) : Prop :=
  ∀ e ∈ loaderReads mem kernel, e.Inside kernel size

/-! ## What is to be checked -/

/-- The buffer from `AllocatePool` holds the file. -/
structure InPool (size : Nat) (file : Bytes) (kernel : UInt64) (mem : Bytes) : Prop where
  inside : kernel.toNat + size ≤ 2 ^ 64
  holds : ∀ k, k < size → mem (kernel.toNat + k) = file k

/-- The magic differs inside the file. -/
def BadMagic (size : Nat) (file : Bytes) : Prop :=
  ∃ k, ∃ hk : k < 4, k < size ∧ file k ≠ elfMagic[k]

/-- Program header `i` and the first `n` bytes of its segment are inside the file. -/
structure HeaderIn (size : Nat) (file : Bytes) (i n : Nat) : Prop where
  product : i * phentsize file < 2 ^ 31
  type : phdrPos file i + 4 ≤ size
  fields : (phdr file i).type = 1 → phdrPos file i + 48 ≤ size
  segment : (phdr file i).type = 1 → n = 0 ∨ (phdr file i).offset.toNat + n ≤ size

/-- The ELF header as far as it is used and all program headers and segments are
inside the file. -/
structure Loadable (size : Nat) (file : Bytes) : Prop where
  header : 58 ≤ size
  entries : ∀ i, i < phnum file → HeaderIn size file i (phdr file i).filesz.toNat

/-- What the buffer holds. -/
def image (mem : Bytes) (kernel : UInt64) : Bytes := fun k => mem (kernel.toNat + k)

/-- The memory before round `i`. -/
def roundMem (mem : Bytes) (kernel : UInt64) : Nat → Bytes
  | 0 => mem
  | i+1 => loadSegment (roundMem mem kernel i) kernel (UInt16.ofNat i)

/-- The loop gets to round `i`. -/
def Entered (mem : Bytes) (kernel : UInt64) (i : Nat) : Prop :=
  ∀ j, j ≤ i → j < phnum (image (roundMem mem kernel j) kernel)

/-- The number of bytes that `copyLoop` copies. -/
def copyCount (mem : Bytes) (phdr dest src j : UInt64) : Nat :=
  if _h : j < load64 mem (phdr + pFilesz) then
    copyCount (put mem (dest + j).toNat (mem (src + j).toNat)) phdr dest src (j + 1) + 1
  else 0
termination_by 2 ^ 64 - j.toNat
decreasing_by exact round_lt _h

/-- The number of bytes that round `i` copies if its header is a `PT_LOAD` one: its
`p_filesz`, unless the segment is loaded over that. -/
def copied (mem : Bytes) (kernel : UInt64) (i : UInt16) : Nat :=
  let phdr := phdrAddr mem kernel i
  copyCount mem phdr (load64 mem (phdr + pVaddr)) (kernel + load64 mem (phdr + pOffset)) 0

/-- Every round finds its header and its segment inside the buffer. -/
structure RoundsIn (size : Nat) (kernel : UInt64) (mem : Bytes) : Prop where
  header : 58 ≤ size
  rounds : ∀ i, Entered mem kernel i →
    HeaderIn size (image (roundMem mem kernel i) kernel) i
      (copied (roundMem mem kernel i) kernel (UInt16.ofNat i))

/-- Byte `k` of the file belongs to a header field. -/
def HeaderByte (file : Bytes) (k : Nat) : Prop :=
  (32 ≤ k ∧ k < 58) ∨ ∃ i, i < phnum file ∧ phdrPos file i ≤ k ∧ k < phdrPos file i + 48

/-- The loader stores to `x` for this header; target addresses wrap. -/
def Phdr.Stores (p : Phdr) (x : Nat) : Prop :=
  ∃ j, (j < p.filesz.toNat ∨ j < p.memsz.toNat) ∧ (p.vaddr.toNat + j) % 2 ^ 64 = x

/-- No segment whose header is inside the file is loaded over the headers in the
buffer. -/
def HeadersApart (size : Nat) (file : Bytes) (kernel : UInt64) : Prop :=
  ∀ i k, IsLoad file i → phdrPos file i + 48 ≤ size → k < size → HeaderByte file k →
    ¬ (phdr file i).Stores (kernel.toNat + k)

/-- The headers in the buffer are the file's. -/
def Kept (size : Nat) (file : Bytes) (kernel : UInt64) (mem : Bytes) : Prop :=
  ∀ k, k < size → HeaderByte file k → mem (kernel.toNat + k) = file k

/-! ## Reading the header -/

section Reads

variable {size : Nat} {file mem : Bytes} {kernel : UInt64}

/-- A buffer that no segment reaches keeps the file. -/
theorem InPool.kept (hb : InPool size file kernel mem) : Kept size file kernel mem :=
  fun k hk _ => hb.holds k hk

theorem read_inside {off width : Nat} :
    (Event.read kernel off width).Inside kernel size ↔ off + width ≤ size := by
  simp only [Event.Inside]
  omega

/-- A number read from header bytes is the file's. -/
theorem Kept.leNat_eq (h : Kept size file kernel mem) {k w : Nat} (hk : k + w ≤ size)
    (hheader : ∀ x, k ≤ x → x < k + w → HeaderByte file x) :
    leNat mem (kernel.toNat + k) w = leNat file k w := by
  apply leNat_ext
  intro i hi
  rw [Nat.add_assoc]
  exact h (k + i) (by omega) (hheader _ (by omega) (by omega))

/-- The same number through an address. -/
theorem Kept.read_eq (hinside : kernel.toNat + size ≤ 2 ^ 64) (h : Kept size file kernel mem)
    {off : UInt64} {k w : Nat} (hoff : off.toNat = k) (hw : 0 < w) (hk : k + w ≤ size)
    (hheader : ∀ x, k ≤ x → x < k + w → HeaderByte file x) :
    leNat mem (kernel + off).toNat w = leNat file k w := by
  rw [toNat_add_of_lt (by omega), hoff]
  exact h.leNat_eq hk hheader

/-! ## The header in use -/

section Header

variable {i : UInt16} (hinside : kernel.toNat + size ≤ 2 ^ 64) (hkept : Kept size file kernel mem)
  (hsize : 58 ≤ size)

include hinside hkept hsize

theorem phnum_kept : (load16 mem (kernel + ePhnum)).toNat = phnum file := by
  rw [load16, word16, hkept.read_eq hinside (k := 56) rfl (by decide) (by omega)
    fun x hlo hhi => Or.inl (by omega)]
  rfl

theorem phoff_kept : (load64 mem (kernel + ePhoff)).toNat = phoff file := by
  rw [load64, word64, hkept.read_eq hinside (k := 32) rfl (by decide) (by omega)
    fun x hlo hhi => Or.inl (by omega)]
  rfl

theorem phentsize_kept : (load16 mem (kernel + ePhentsize)).toNat = phentsize file := by
  rw [load16, word16, hkept.read_eq hinside (k := 54) rfl (by decide) (by omega)
    fun x hlo hhi => Or.inl (by omega)]
  rfl

/-- Without overflow, the address of a header is its place in the file. -/
theorem phdrAddr_kept (hproduct : i.toNat * phentsize file < 2 ^ 31)
    (hsum : phdrPos file i.toNat < 2 ^ 64) :
    ∃ pos : UInt64, phdrAddr mem kernel i = kernel + pos ∧ pos.toNat = phdrPos file i.toNat := by
  refine ⟨load64 mem (kernel + ePhoff) + entryOffset i (load16 mem (kernel + ePhentsize)), ?_, ?_⟩
  · rw [phdrAddr, UInt64.add_assoc]
  · have hoffset : (entryOffset i (load16 mem (kernel + ePhentsize))).toNat =
        i.toNat * phentsize file := by
      rw [entryOffset, phentsize_kept hinside hkept hsize, if_pos (by omega),
        UInt64.toNat_ofNat']
      omega
    have hphoff := phoff_kept hinside hkept hsize
    rw [phdrPos] at hsum ⊢
    rw [toNat_add_of_lt (by omega), hphoff, hoffset]

/-- The computation of the address is in order if it does not overflow. -/
theorem addressEvents_inside :
    (∀ e ∈ addressEvents mem kernel i, e.Inside kernel size) ↔
      i.toNat * phentsize file < 2 ^ 31 ∧ kernel.toNat + phdrPos file i.toNat < 2 ^ 64 := by
  have hphoff : (Event.read kernel ePhoff.toNat 8).Inside kernel size :=
    read_inside.mpr (Nat.le_trans (by decide) hsize)
  have hphentsize : (Event.read kernel ePhentsize.toNat 2).Inside kernel size :=
    read_inside.mpr (Nat.le_trans (by decide) hsize)
  rw [addressEvents, List.forall_mem_cons, List.forall_mem_cons, List.forall_mem_singleton,
    phentsize_kept hinside hkept hsize, phoff_kept hinside hkept hsize, phdrPos,
    ← Nat.add_assoc]
  exact ⟨fun hall => hall.2.2, fun hsum => ⟨hphoff, hphentsize, hsum⟩⟩

omit hsize in
/-- The type of a header inside the file. -/
theorem type_kept {pos : UInt64} (hpos : pos.toNat = phdrPos file i.toNat)
    (hi : i.toNat < phnum file) (hin : phdrPos file i.toNat + 4 ≤ size) :
    load32 mem (kernel + pos) = (phdr file i.toNat).type := by
  rw [load32, word32, hkept.read_eq hinside hpos (by decide) hin
    fun x hlo hhi => Or.inr ⟨i.toNat, hi, by omega, by omega⟩]
  rfl

end Header

/-! ## The byte loops -/

/-- The copy loop reads one field of the header and the bytes it copies. -/
theorem copyReads_inside (mem : Bytes) (a dest src j : UInt64) :
    (∀ e ∈ copyReads mem a dest src j, e.Inside kernel size) ↔
      (Event.read a pFilesz.toNat 8).Inside kernel size ∧
        ∀ k, j.toNat ≤ k → k < j.toNat + copyCount mem a dest src j →
          (Event.read src k 1).Inside kernel size := by
  induction hleft : 2 ^ 64 - j.toNat using Nat.strongRecOn generalizing mem j with
  | ind left ih =>
      unfold copyReads copyCount
      rw [List.forall_mem_cons]
      by_cases hlt : j < load64 mem (a + pFilesz)
      · have hnext := toNat_add_one_of_lt hlt
        have hrest := ih _ (hleft ▸ round_lt hlt)
          (put mem (dest + j).toNat (mem (src + j).toNat)) (j + 1) rfl
        rw [dif_pos hlt, dif_pos hlt, List.forall_mem_cons, hrest, hnext]
        constructor
        · intro hall
          refine ⟨hall.1, fun k hlo hhi => ?_⟩
          rcases Nat.eq_or_lt_of_le hlo with hfirst | hlater
          · rw [← hfirst]
            exact hall.2.1
          · exact hall.2.2.2 k hlater (by omega)
        · intro hall
          exact ⟨hall.1, hall.2 _ (Nat.le_refl _) (by omega), hall.1,
            fun k hlo hhi => hall.2 k (by omega) (by omega)⟩
      · rw [dif_neg hlt, dif_neg hlt]
        constructor
        · intro hall
          exact ⟨hall.1, fun k hlo hhi => absurd hhi (by omega)⟩
        · intro hall
          exact ⟨hall.1, fun e he => absurd he (by simp)⟩

/-- The zero loop reads one field of the header. -/
theorem zeroReads_inside (mem : Bytes) (a dest j : UInt64) :
    (∀ e ∈ zeroReads mem a dest j, e.Inside kernel size) ↔
      (Event.read a pMemsz.toNat 8).Inside kernel size := by
  induction hleft : 2 ^ 64 - j.toNat using Nat.strongRecOn generalizing mem j with
  | ind left ih =>
      unfold zeroReads
      rw [List.forall_mem_cons]
      by_cases hlt : j < load64 mem (a + pMemsz)
      · rw [dif_pos hlt, ih _ (hleft ▸ round_lt hlt) (put mem (dest + j).toNat 0) (j + 1) rfl]
        exact and_self_iff
      · rw [dif_neg hlt]
        exact and_iff_left fun e he => absurd he (by simp)

/-- The first bytes of a segment are in the buffer. -/
theorem segment_in_iff (hinside : kernel.toNat + size ≤ 2 ^ 64) (offset : UInt64) (n : Nat) :
    (∀ k, 0 ≤ k → k < 0 + n → (Event.read (kernel + offset) k 1).Inside kernel size) ↔
      n = 0 ∨ offset.toNat + n ≤ size := by
  have hoffset := offset.toNat_lt
  have hkernel := kernel.toNat_lt
  simp only [Event.Inside, UInt64.toNat_add]
  constructor
  · intro hall
    by_cases hzero : n = 0
    · exact Or.inl hzero
    · -- If the pointer wrapped, the first byte would be in front of the buffer.
      have hfirst := hall 0 (Nat.le_refl _) (by omega)
      have hlast := hall (n - 1) (Nat.zero_le _) (by omega)
      omega
  · intro hin k _ hk
    rcases hin with hzero | hin
    · omega
    · omega

/-! ## One segment -/

/-- The header of a segment in the buffer. -/
structure Segment (size : Nat) (file : Bytes) (kernel a : UInt64) (i : Nat) (pos : UInt64) :
    Prop where
  load : IsLoad file i
  inFile : phdrPos file i + 48 ≤ size
  addr : a = kernel + pos
  pos : pos.toNat = phdrPos file i

section Segment

variable {a pos dest : UInt64} {i : Nat} (hinside : kernel.toNat + size ≤ 2 ^ 64)
  (hseg : Segment size file kernel a i pos)

include hinside hseg

/-- A field of the header is read inside the buffer. -/
theorem Segment.inside {off : UInt64} (hoff : off.toNat + 8 ≤ 48) :
    (Event.read a off.toNat 8).Inside kernel size := by
  have hin := hseg.inFile
  have hpos := hseg.pos
  have haddr : a.toNat = kernel.toNat + phdrPos file i := by
    rw [hseg.addr, toNat_add_of_lt (by omega), hpos]
  simp only [Event.Inside]
  omega

/-- Its value is the file's. -/
theorem Segment.field (hkept : Kept size file kernel mem) {off : UInt64}
    (hoff : off.toNat + 8 ≤ 48) :
    load64 mem (a + off) = word64 file (phdrPos file i + off.toNat) := by
  have hin := hseg.inFile
  have hpos := hseg.pos
  have hoffset : (pos + off).toNat = phdrPos file i + off.toNat := by
    rw [toNat_add_of_lt (by omega), hpos]
  rw [hseg.addr, UInt64.add_assoc, load64, word64, word64,
    hkept.read_eq hinside hoffset (by decide) (by omega)
      fun x hlo hhi => Or.inr ⟨i, hseg.load.1, by omega, by omega⟩]

theorem Segment.vaddr (hkept : Kept size file kernel mem) :
    load64 mem (a + pVaddr) = (phdr file i).vaddr := hseg.field hinside hkept (by decide)

theorem Segment.offset (hkept : Kept size file kernel mem) :
    load64 mem (a + pOffset) = (phdr file i).offset := hseg.field hinside hkept (by decide)

theorem Segment.filesz (hkept : Kept size file kernel mem) :
    load64 mem (a + pFilesz) = (phdr file i).filesz := hseg.field hinside hkept (by decide)

theorem Segment.memsz (hkept : Kept size file kernel mem) :
    load64 mem (a + pMemsz) = (phdr file i).memsz := hseg.field hinside hkept (by decide)

omit hinside in
/-- A byte stored for the segment misses the headers. -/
theorem Segment.put (hapart : HeadersApart size file kernel) (hkept : Kept size file kernel mem)
    {j : UInt64} (hdest : dest = (phdr file i).vaddr)
    (hj : j.toNat < (phdr file i).filesz.toNat ∨ j.toNat < (phdr file i).memsz.toNat) (v : UInt8) :
    Kept size file kernel (put mem (dest + j).toNat v) := by
  intro k hk hheader
  have hne : kernel.toNat + k ≠ (dest + j).toNat := by
    intro heq
    refine hapart i k hseg.load hseg.inFile hk hheader ⟨j.toNat, hj, ?_⟩
    rw [heq, hdest, UInt64.toNat_add]
  rw [put_ne _ _ hne]
  exact hkept k hk hheader

/-- **Copy loop.**  Apart from the headers it keeps them and copies `p_filesz`
bytes. -/
theorem Segment.copy (hapart : HeadersApart size file kernel) (hkept : Kept size file kernel mem)
    {j : UInt64} (hdest : dest = (phdr file i).vaddr) (src : UInt64) :
    Kept size file kernel (copyLoop mem a dest src j) ∧
      copyCount mem a dest src j = (phdr file i).filesz.toNat - j.toNat := by
  induction hleft : (phdr file i).filesz.toNat - j.toNat generalizing mem j with
  | zero =>
      have hdone : ¬ j < (phdr file i).filesz :=
        UInt64.not_lt.mpr (UInt64.le_iff_toNat_le.mpr (by omega))
      unfold copyLoop copyCount
      rw [hseg.filesz hinside hkept, dif_neg hdone, dif_neg hdone]
      exact ⟨hkept, rfl⟩
  | succ left ih =>
      have hlt : j < (phdr file i).filesz := UInt64.lt_iff_toNat_lt.mpr (by omega)
      have hnext := toNat_add_one_of_lt hlt
      have hput := hseg.put hapart hkept hdest (j := j) (Or.inl (by omega)) (mem (src + j).toNat)
      obtain ⟨hafter, hcount⟩ := ih hput (j := j + 1) (by omega)
      unfold copyLoop copyCount
      rw [hseg.filesz hinside hkept, dif_pos hlt, dif_pos hlt, hcount]
      exact ⟨hafter, rfl⟩

/-- **Zero loop.**  Apart from the headers it keeps them. -/
theorem Segment.zero (hapart : HeadersApart size file kernel) (hkept : Kept size file kernel mem)
    (hdest : dest = (phdr file i).vaddr) (j : UInt64) :
    Kept size file kernel (zeroLoop mem a dest j) := by
  induction hleft : (phdr file i).memsz.toNat - j.toNat generalizing mem j with
  | zero =>
      have hdone : ¬ j < (phdr file i).memsz :=
        UInt64.not_lt.mpr (UInt64.le_iff_toNat_le.mpr (by omega))
      unfold zeroLoop
      rw [hseg.memsz hinside hkept, dif_neg hdone]
      exact hkept
  | succ left ih =>
      have hlt : j < (phdr file i).memsz := UInt64.lt_iff_toNat_lt.mpr (by omega)
      have hnext := toNat_add_one_of_lt hlt
      have hput := hseg.put hapart hkept hdest (j := j) (Or.inr (by omega)) 0
      unfold zeroLoop
      rw [hseg.memsz hinside hkept, dif_pos hlt]
      exact ih hput (j + 1) (by omega)

end Segment

/-! ## One round -/

section Round

variable {i : UInt16} (hinside : kernel.toNat + size ≤ 2 ^ 64) (hkept : Kept size file kernel mem)
  (hsize : 58 ≤ size) (hi : i.toNat < phnum file)

include hinside hkept hsize hi

omit hsize in
/-- The reads for a `PT_LOAD` header.  Those of the header stay inside if it is in
the file to its last field, which is always read, and those of the segment if the
bytes copied are in the file. -/
theorem loadReads_inside {pos dest j : UInt64} {after : Bytes} {count : Nat}
    (hpos : pos.toNat = phdrPos file i.toNat)
    (hwhole : (kernel + pos).toNat = kernel.toNat + phdrPos file i.toNat)
    (hone : (phdr file i.toNat).type = 1)
    (hcount : count = copyCount mem (kernel + pos) dest
      (kernel + load64 mem (kernel + pos + pOffset)) 0) :
    (∀ e ∈ Event.read (kernel + pos) pVaddr.toNat 8 :: .read (kernel + pos) pOffset.toNat 8 ::
        copyReads mem (kernel + pos) dest (kernel + load64 mem (kernel + pos + pOffset)) 0 ++
          .read (kernel + pos) pFilesz.toNat 8 :: zeroReads after (kernel + pos) dest j,
        e.Inside kernel size) ↔
      phdrPos file i.toNat + 48 ≤ size ∧
        (count = 0 ∨ (phdr file i.toNat).offset.toNat + count ≤ size) := by
  have hzero : (0 : UInt64).toNat = 0 := rfl
  rw [List.forall_mem_append, List.forall_mem_cons, List.forall_mem_cons, List.forall_mem_cons,
    copyReads_inside, zeroReads_inside, ← hcount, hzero, segment_in_iff hinside]
  constructor
  · intro hall
    obtain ⟨⟨_, _, _, hsource⟩, _, hlast⟩ := hall
    have hfields : phdrPos file i.toNat + 48 ≤ size := by
      have hmemsz : pMemsz.toNat = 40 := rfl
      simp only [Event.Inside] at hlast
      omega
    have hseg : Segment size file kernel (kernel + pos) i.toNat pos :=
      ⟨⟨hi, hone⟩, hfields, rfl, hpos⟩
    rw [hseg.offset hinside hkept] at hsource
    exact ⟨hfields, hsource⟩
  · intro hboth
    obtain ⟨hfields, hsource⟩ := hboth
    have hseg : Segment size file kernel (kernel + pos) i.toNat pos :=
      ⟨⟨hi, hone⟩, hfields, rfl, hpos⟩
    rw [← hseg.offset hinside hkept] at hsource
    exact ⟨⟨hseg.inside hinside (by decide), hseg.inside hinside (by decide),
      hseg.inside hinside (by decide), hsource⟩,
      hseg.inside hinside (by decide), hseg.inside hinside (by decide)⟩

/-- **Reads of one round.** -/
theorem segmentReads_inside :
    (∀ e ∈ segmentReads mem kernel i, e.Inside kernel size) ↔
      HeaderIn size file i.toNat (copied mem kernel i) := by
  unfold segmentReads copied
  rw [List.forall_mem_append, addressEvents_inside hinside hkept hsize, List.forall_mem_cons]
  constructor
  · intro hall
    obtain ⟨⟨hproduct, hsum⟩, htype, hrest⟩ := hall
    obtain ⟨pos, haddr, hpos⟩ := phdrAddr_kept hinside hkept hsize hproduct (by omega)
    have hwhole : (kernel + pos).toNat = kernel.toNat + phdrPos file i.toNat := by
      rw [toNat_add_of_lt (by omega), hpos]
    rw [haddr] at htype hrest ⊢
    have hin : phdrPos file i.toNat + 4 ≤ size := by
      simp only [Event.Inside] at htype
      omega
    rw [type_kept hinside hkept hpos hi hin] at hrest
    have hload : ∀ hone : (phdr file i.toNat).type = 1, _ := fun hone =>
      (loadReads_inside hinside hkept hi hpos hwhole hone rfl).mp
        (by rw [if_pos hone] at hrest; exact hrest)
    exact ⟨hproduct, hin, fun hone => (hload hone).1, fun hone => (hload hone).2⟩
  · intro hin
    have htype := hin.type
    obtain ⟨pos, haddr, hpos⟩ := phdrAddr_kept hinside hkept hsize hin.product (by omega)
    have hwhole : (kernel + pos).toNat = kernel.toNat + phdrPos file i.toNat := by
      rw [toNat_add_of_lt (by omega), hpos]
    have hsegment := hin.segment
    rw [haddr] at hsegment ⊢
    rw [type_kept hinside hkept hpos hi htype]
    refine ⟨⟨hin.product, by omega⟩, ?_, ?_⟩
    · simp only [Event.Inside]
      omega
    · by_cases hone : (phdr file i.toNat).type = 1
      · rw [if_pos hone]
        exact (loadReads_inside hinside hkept hi hpos hwhole hone rfl).mpr
          ⟨hin.fields hone, hsegment hone⟩
      · rw [if_neg hone]
        exact fun e he => absurd he (by simp)

/-- Apart from the headers, a round copies what its header says. -/
theorem headerIn_copied (hapart : HeadersApart size file kernel) :
    HeaderIn size file i.toNat (copied mem kernel i) ↔
      HeaderIn size file i.toNat (phdr file i.toNat).filesz.toNat := by
  have hcount : i.toNat * phentsize file < 2 ^ 31 → phdrPos file i.toNat + 48 ≤ size →
      (phdr file i.toNat).type = 1 →
        copied mem kernel i = (phdr file i.toNat).filesz.toNat := by
    intro hproduct hfields hone
    obtain ⟨pos, haddr, hpos⟩ := phdrAddr_kept hinside hkept hsize hproduct (by omega)
    have hseg : Segment size file kernel (kernel + pos) i.toNat pos :=
      ⟨⟨hi, hone⟩, hfields, rfl, hpos⟩
    have hzero : (0 : UInt64).toNat = 0 := rfl
    unfold copied
    rw [haddr, (hseg.copy hinside hapart hkept (hseg.vaddr hinside hkept) _).2, hzero,
      Nat.sub_zero]
  constructor
  · intro hin
    refine ⟨hin.product, hin.type, hin.fields, fun hone => ?_⟩
    rw [← hcount hin.product (hin.fields hone) hone]
    exact hin.segment hone
  · intro hin
    refine ⟨hin.product, hin.type, hin.fields, fun hone => ?_⟩
    rw [hcount hin.product (hin.fields hone) hone]
    exact hin.segment hone

/-- A round whose header is inside the file keeps the headers. -/
theorem loadSegment_kept (hapart : HeadersApart size file kernel) {n : Nat}
    (hin : HeaderIn size file i.toNat n) : Kept size file kernel (loadSegment mem kernel i) := by
  have htype := hin.type
  obtain ⟨pos, haddr, hpos⟩ := phdrAddr_kept hinside hkept hsize hin.product (by omega)
  unfold loadSegment
  rw [haddr]
  dsimp only
  rw [type_kept hinside hkept hpos hi htype]
  by_cases hone : (phdr file i.toNat).type = 1
  · have hseg : Segment size file kernel (kernel + pos) i.toNat pos :=
      ⟨⟨hi, hone⟩, hin.fields hone, rfl, hpos⟩
    have hvaddr := hseg.vaddr hinside hkept
    have hcopied := (hseg.copy hinside hapart hkept (j := 0) hvaddr
      (kernel + load64 mem (kernel + pos + pOffset))).1
    rw [if_pos hone]
    exact hseg.zero hinside hapart hcopied hvaddr _
  · rw [if_neg hone]
    exact hkept

end Round

/-! ## The loop -/

/-- The memory's own view of the buffer is kept by that memory. -/
theorem image_kept (mem : Bytes) (kernel : UInt64) :
    Kept size (image mem kernel) kernel mem := fun _ _ _ => rfl

theorem phnum_image (hinside : kernel.toNat + size ≤ 2 ^ 64) (hkept : Kept size file kernel mem)
    (hsize : 58 ≤ size) : phnum (image mem kernel) = phnum file := by
  have himage : Kept size (image mem kernel) kernel mem := image_kept mem kernel
  rw [← phnum_kept hinside himage hsize, phnum_kept hinside hkept hsize]

/-- A round that finds the headers kept finds what the file says. -/
theorem headerIn_image (hinside : kernel.toNat + size ≤ 2 ^ 64)
    (hkept : Kept size file kernel mem) (hsize : 58 ≤ size)
    (hapart : HeadersApart size file kernel) {i : Nat} (hi : i < phnum file) :
    HeaderIn size (image mem kernel) i (copied mem kernel (UInt16.ofNat i)) ↔
      HeaderIn size file i (phdr file i).filesz.toNat := by
  have himage : Kept size (image mem kernel) kernel mem := image_kept mem kernel
  have hmax : phnum file < 2 ^ 16 := (word16 file 56).toNat_lt
  have hcount := phnum_image hinside hkept hsize
  have hi' : (UInt16.ofNat i).toNat = i := by
    rw [UInt16.toNat_ofNat']
    omega
  have hfile := segmentReads_inside hinside hkept hsize (i := UInt16.ofNat i) (by omega)
  have hheld := segmentReads_inside hinside himage hsize (i := UInt16.ofNat i) (by omega)
  have hcopied := headerIn_copied hinside hkept hsize (i := UInt16.ofNat i) (by omega) hapart
  rw [hi'] at hfile hheld hcopied
  rw [← hheld, hfile, hcopied]

/-- **Run lemma.**  From any round on, the loop reads inside the buffer exactly if
every round that is entered does. -/
theorem loopReads_inside (hinside : kernel.toNat + size ≤ 2 ^ 64) (hsize : 58 ≤ size)
    (mem : Bytes) (i : UInt16) :
    (∀ e ∈ loopReads (roundMem mem kernel i.toNat) kernel i, e.Inside kernel size) ↔
      ∀ k, i.toNat ≤ k →
        (∀ j, i.toNat ≤ j → j ≤ k → j < phnum (image (roundMem mem kernel j) kernel)) →
          HeaderIn size (image (roundMem mem kernel k) kernel) k
            (copied (roundMem mem kernel k) kernel (UInt16.ofNat k)) := by
  have hcount : (Event.read kernel ePhnum.toNat 2).Inside kernel size := read_inside.mpr hsize
  induction hleft : 2 ^ 16 - i.toNat using Nat.strongRecOn generalizing i with
  | ind left ih =>
      have hphnum := phnum_kept hinside (image_kept (roundMem mem kernel i.toNat) kernel) hsize
      unfold loopReads
      rw [List.forall_mem_cons]
      by_cases hlt : i < load16 (roundMem mem kernel i.toNat) (kernel + ePhnum)
      · have hin : i.toNat < phnum (image (roundMem mem kernel i.toNat) kernel) := by
          rw [← hphnum]
          exact UInt16.lt_iff_toNat_lt.mp hlt
        have hmax := (load16 (roundMem mem kernel i.toNat) (kernel + ePhnum)).toNat_lt
        have hone : (1 : UInt16).toNat = 1 := rfl
        have hnext : (i + 1).toNat = i.toNat + 1 := by
          rw [UInt16.toNat_add, hone]
          omega
        have hafter : loadSegment (roundMem mem kernel i.toNat) kernel i =
            roundMem mem kernel (i + 1).toNat := by
          rw [hnext, roundMem, UInt16.ofNat_toNat]
        have hround := segmentReads_inside hinside
          (image_kept (roundMem mem kernel i.toNat) kernel) hsize hin
        obtain ⟨hforward, hback⟩ := ih _ (hleft ▸ header_lt hlt) (i + 1) rfl
        rw [hnext] at hforward hback
        rw [dif_pos hlt, List.forall_mem_append, hround, hafter, hnext]
        constructor
        · intro hall k hlo hentered
          rcases Nat.eq_or_lt_of_le hlo with hfirst | hlater
          · rw [← hfirst, UInt16.ofNat_toNat]
            exact hall.2.1
          · exact hforward hall.2.2 k hlater fun j hj hjk => hentered j (by omega) hjk
        · intro hall
          refine ⟨hcount, ?_, hback fun k hlo hentered => hall k (by omega) fun j hj hjk => ?_⟩
          · have hfirst := hall i.toNat (Nat.le_refl _) fun j hj hjk => by
              rwa [Nat.le_antisymm hjk hj]
            rwa [UInt16.ofNat_toNat] at hfirst
          · rcases Nat.eq_or_lt_of_le hj with hfirst | hlater
            · rwa [← hfirst]
            · exact hentered j hlater hjk
      · have hout : ¬ i.toNat < phnum (image (roundMem mem kernel i.toNat) kernel) := by
          rw [← hphnum]
          exact fun h => hlt (UInt16.lt_iff_toNat_lt.mpr h)
        rw [dif_neg hlt]
        refine iff_of_true ⟨hcount, fun e he => absurd he (by simp)⟩ fun k hlo hentered => ?_
        exact absurd (hentered i.toNat (Nat.le_refl _) hlo) hout

/-! ## What the file says -/

/-- As long as the rounds find what the file says inside the buffer, the headers
are kept. -/
theorem roundMem_kept (hb : InPool size file kernel mem) (hsize : 58 ≤ size)
    (hapart : HeadersApart size file kernel) {i : Nat} (hi : i ≤ phnum file)
    (hin : ∀ j, j < i → HeaderIn size file j (phdr file j).filesz.toNat) :
    Kept size file kernel (roundMem mem kernel i) := by
  induction i with
  | zero => exact hb.kept
  | succ i ih =>
      have hkept := ih (by omega) fun j hj => hin j (by omega)
      have hmax : phnum file < 2 ^ 16 := (word16 file 56).toNat_lt
      have hi' : (UInt16.ofNat i).toNat = i := by
        rw [UInt16.toNat_ofNat']
        omega
      have hround := hin i (by omega)
      rw [← hi'] at hround
      exact loadSegment_kept hb.inside hkept hsize (by omega) hapart hround

/-- Apart from the headers, the rounds find what the file says. -/
theorem roundsIn_iff (hb : InPool size file kernel mem) (hapart : HeadersApart size file kernel) :
    RoundsIn size kernel mem ↔ Loadable size file := by
  have hinside := hb.inside
  constructor
  · intro hin
    have hsize := hin.header
    refine ⟨hsize, fun i hi => ?_⟩
    induction i using Nat.strongRecOn with
    | ind i ih =>
        have hkept : ∀ j, j ≤ i → Kept size file kernel (roundMem mem kernel j) := fun j hj =>
          roundMem_kept hb hsize hapart (by omega) fun k hk => ih k (by omega) (by omega)
        have hentered : Entered mem kernel i := by
          intro j hj
          rw [phnum_image hinside (hkept j hj) hsize]
          omega
        exact (headerIn_image hinside (hkept i (Nat.le_refl _)) hsize hapart hi).mp
          (hin.rounds i hentered)
  · intro hload
    have hsize := hload.header
    have hkept : ∀ i, i ≤ phnum file → Kept size file kernel (roundMem mem kernel i) :=
      fun i hi => roundMem_kept hb hsize hapart hi fun j hj => hload.entries j (by omega)
    refine ⟨hsize, fun i hentered => ?_⟩
    have hi : i < phnum file := by
      apply Classical.byContradiction
      intro hge
      have hlast := hentered (phnum file) (by omega)
      rw [phnum_image hinside (hkept _ (Nat.le_refl _)) hsize] at hlast
      omega
    exact (headerIn_image hinside (hkept i (by omega)) hsize hapart hi).mpr (hload.entries i hi)

/-! ## The whole run -/

/-- The magic check from `off` on reads inside the buffer exactly if it ends there. -/
theorem magicReads_inside (hb : InPool size file kernel mem) (magic : List UInt8) (off : UInt64)
    (hoff : off.toNat + magic.length < 2 ^ 64) (hsize : off.toNat ≤ size) :
    (∀ e ∈ magicReads mem kernel off magic, e.Inside kernel size) ↔
      (∃ k, ∃ hk : k < magic.length, off.toNat + k < size ∧ file (off.toNat + k) ≠ magic[k]) ∨
        off.toNat + magic.length ≤ size := by
  induction magic generalizing off with
  | nil => exact iff_of_true (fun e he => absurd he (by simp [magicReads])) (Or.inr hsize)
  | cons c rest ih =>
      have hone : (1 : UInt64).toNat = 1 := rfl
      rw [List.length_cons] at hoff
      have hnext : (off + 1).toNat = off.toNat + 1 := by
        rw [toNat_add_of_lt (by omega), hone]
      rw [magicReads, List.forall_mem_cons, read_inside]
      by_cases hin : off.toNat + 1 ≤ size
      · have hinside := hb.inside
        have hrest := ih (off + 1) (by omega) (by omega)
        have hbyte : mem (kernel + off).toNat = file off.toNat := by
          rw [toNat_add_of_lt (by omega)]
          exact hb.holds _ (by omega)
        rw [hnext] at hrest
        rw [hbyte]
        by_cases hc : file off.toNat = c
        · rw [if_neg (not_not.mpr hc), hrest]
          constructor
          · intro hboth
            obtain ⟨_, ⟨k, hk, hlt, hne⟩ | hlen⟩ := hboth
            · have hplace : off.toNat + 1 + k = off.toNat + (k + 1) := by omega
              rw [hplace] at hlt hne
              exact Or.inl ⟨k + 1, Nat.succ_lt_succ hk, hlt, hne⟩
            · exact Or.inr (by rw [List.length_cons]; omega)
          · intro hcase
            rcases hcase with ⟨k, hk, hlt, hne⟩ | hlen
            · cases k with
              | zero => exact absurd hc hne
              | succ k =>
                  have hplace : off.toNat + (k + 1) = off.toNat + 1 + k := by omega
                  rw [hplace] at hlt hne
                  exact ⟨hin, Or.inl ⟨k, Nat.lt_of_succ_lt_succ hk, hlt, hne⟩⟩
            · rw [List.length_cons] at hlen
              exact ⟨hin, Or.inr (by omega)⟩
        · rw [if_pos hc]
          refine iff_of_true ⟨hin, fun e he => absurd he (by simp)⟩ (Or.inl ⟨0, by simp, ?_⟩)
          exact ⟨by omega, hc⟩
      · refine iff_of_false (fun hboth => hin hboth.1) ?_
        intro hcase
        rcases hcase with ⟨k, hk, hlt, _⟩ | hlen
        · omega
        · rw [List.length_cons] at hlen
          omega

/-- The buffer's first bytes are the file's. -/
theorem InPool.magic_eq (hb : InPool size file kernel mem) (off : UInt64)
    (hoff : off.toNat < size) : mem (kernel + off).toNat = file off.toNat := by
  have hinside := hb.inside
  rw [toNat_add_of_lt (by omega)]
  exact hb.holds _ hoff

/-- A wrong magic stops the loader before it stores anything. -/
theorem loadKernel_of_badMagic (hb : InPool size file kernel mem) (h : BadMagic size file) :
    loadKernel mem kernel = none := by
  obtain ⟨k, hk, hlt, hne⟩ := h
  unfold loadKernel
  apply if_pos
  obtain rfl | rfl | rfl | rfl : k = 0 ∨ k = 1 ∨ k = 2 ∨ k = 3 := by omega
  · have hbyte : mem kernel.toNat = file 0 := hb.holds 0 hlt
    exact Or.inl (by rw [hbyte]; exact hne)
  · have hbyte : mem (kernel + 1).toNat = file 1 := hb.magic_eq 1 hlt
    exact Or.inr (Or.inl (by rw [hbyte]; exact hne))
  · have hbyte : mem (kernel + 2).toNat = file 2 := hb.magic_eq 2 hlt
    exact Or.inr (Or.inr (Or.inl (by rw [hbyte]; exact hne)))
  · have hbyte : mem (kernel + 3).toNat = file 3 := hb.magic_eq 3 hlt
    exact Or.inr (Or.inr (Or.inr (by rw [hbyte]; exact hne)))

/-- With the right magic the loader goes on. -/
theorem loadKernel_of_magic (hb : InPool size file kernel mem) (hsize : 4 ≤ size)
    (h : ¬ BadMagic size file) : (loadKernel mem kernel).isSome := by
  have h0 : mem kernel.toNat = file 0 := hb.holds 0 (by omega)
  have h1 : mem (kernel + 1).toNat = file 1 :=
    hb.magic_eq 1 (Nat.lt_of_lt_of_le (by decide) hsize)
  have h2 : mem (kernel + 2).toNat = file 2 :=
    hb.magic_eq 2 (Nat.lt_of_lt_of_le (by decide) hsize)
  have h3 : mem (kernel + 3).toNat = file 3 :=
    hb.magic_eq 3 (Nat.lt_of_lt_of_le (by decide) hsize)
  rw [loadKernel, h0, h1, h2, h3, if_neg, Option.isSome_some]
  intro hcase
  rcases hcase with hne | hne | hne | hne
  · exact h ⟨0, by decide, by omega, hne⟩
  · exact h ⟨1, by decide, by omega, hne⟩
  · exact h ⟨2, by decide, by omega, hne⟩
  · exact h ⟨3, by decide, by omega, hne⟩

/-- **What the loader reads.**  The loader reads inside the file and computes every
header address without overflow exactly if the magic is wrong inside the file or every
round finds its header and segment there; and what the rounds find is what the file
says, unless a segment is loaded over the headers. -/
theorem contained_iff (hb : InPool size file kernel mem) :
    (Contained size kernel mem ↔ BadMagic size file ∨ RoundsIn size kernel mem) ∧
    (HeadersApart size file kernel →
      (Contained size kernel mem ↔ BadMagic size file ∨ Loadable size file)) := by
  have hmagic := magicReads_inside hb elfMagic 0 (by decide) (Nat.zero_le _)
  have hzero : (0 : UInt64).toNat = 0 := rfl
  have hfour : elfMagic.length = 4 := rfl
  simp only [hzero, Nat.zero_add, hfour] at hmagic
  have hgeneral : Contained size kernel mem ↔ BadMagic size file ∨ RoundsIn size kernel mem := by
    unfold Contained loaderReads
    rw [List.forall_mem_append, hmagic]
    by_cases hbad : BadMagic size file
    · rw [loadKernel_of_badMagic hb hbad]
      exact iff_of_true ⟨Or.inl hbad, fun e he => absurd he (by simp)⟩ (Or.inl hbad)
    · constructor
      · intro hall
        obtain ⟨hends, hreads⟩ := hall
        have hsize : 4 ≤ size := hends.resolve_left hbad
        rw [if_pos (loadKernel_of_magic hb hsize hbad), List.forall_mem_append,
          List.forall_mem_cons] at hreads
        obtain ⟨⟨_, hloop⟩, _⟩ := hreads
        -- The number of headers is read first, and it ends at byte 58.
        have hcount : Event.read kernel ePhnum.toNat 2 ∈ loopReads mem kernel 0 := by
          unfold loopReads
          exact List.mem_cons_self
        have hheader : 58 ≤ size := read_inside.mp (hloop _ hcount)
        have hrounds := (loopReads_inside hb.inside hheader mem 0).mp hloop
        exact Or.inr ⟨hheader, fun i hentered =>
          hrounds i (Nat.zero_le _) fun j _ hj => hentered j hj⟩
      · intro hin
        have hrounds := hin.resolve_left hbad
        have hsize := hrounds.header
        have hentry : (Event.read kernel eEntry.toNat 8).Inside kernel size :=
          read_inside.mpr (Nat.le_trans (by decide) hsize)
        have hloop : ∀ e ∈ loopReads mem kernel 0, e.Inside kernel size :=
          (loopReads_inside hb.inside hsize mem 0).mpr fun k _ hentered =>
            hrounds.rounds k fun j hj => hentered j (Nat.zero_le _) hj
        rw [if_pos (loadKernel_of_magic hb (by omega) hbad), List.forall_mem_append,
          List.forall_mem_cons, List.forall_mem_singleton]
        exact ⟨Or.inr (by omega), ⟨hentry, hloop⟩, hentry⟩
  refine ⟨hgeneral, fun hapart => ?_⟩
  rw [hgeneral, roundsIn_iff hb hapart]

end Reads

/-- The file of one segment is read inside its buffer. -/
theorem contained_iff_sample : Contained 120 8192 sampleMem := by
  have hnum : phnum sampleFile = 1 := by decide
  have hpool : InPool 120 sampleFile 8192 sampleMem :=
    ⟨sampleMem_buffered.inside, sampleMem_buffered.holds⟩
  have hapart : HeadersApart 120 sampleFile 8192 := by
    intro i k hload _ hk _ hstores
    have haddr : (8192 : UInt64).toNat = 8192 := rfl
    have hvaddr : (phdr sampleFile 0).vaddr.toNat = 4096 := by decide
    have hfilesz : (phdr sampleFile 0).filesz.toNat = 4 := by decide
    have hmemsz : (phdr sampleFile 0).memsz.toNat = 8 := by decide
    rw [sampleFile_load hload] at hstores
    obtain ⟨j, hj, hx⟩ := hstores
    omega
  refine ((contained_iff hpool).2 hapart).mpr (Or.inr ⟨by decide, fun i hi => ?_⟩)
  obtain rfl : i = 0 := by omega
  exact ⟨by decide, by decide, by decide, by decide⟩

/-- A memory with the four bytes of the magic at 8192 and zeros behind them. -/
def bareMagic : Bytes := fun x => elfMagic.getD (x - 8192) 0

/-- They are accepted, and the entry address is read behind the buffer. -/
theorem bareMagic_not_contained :
    InPool 4 (fun k => elfMagic.getD k 0) 8192 bareMagic ∧ (loadKernel bareMagic 8192).isSome ∧
      ¬ Contained 4 8192 bareMagic := by
  have hpool : InPool 4 (fun k => elfMagic.getD k 0) 8192 bareMagic := by
    refine ⟨by decide, fun k _ => ?_⟩
    have haddr : (8192 : UInt64).toNat = 8192 := rfl
    rw [haddr, bareMagic, Nat.add_sub_cancel_left]
  have hgood : ¬ BadMagic 4 (fun k => elfMagic.getD k 0) := by
    intro hbad
    obtain ⟨k, hk, _, hne⟩ := hbad
    exact hne (List.getElem_eq_getD 0).symm
  have hsome := loadKernel_of_magic hpool (Nat.le_refl 4) hgood
  refine ⟨hpool, hsome, fun hall => ?_⟩
  have hread : Event.read 8192 eEntry.toNat 8 ∈ loaderReads bareMagic 8192 := by
    rw [loaderReads, if_pos hsome]
    simp
  exact absurd (read_inside.mp (hall _ hread)) (by decide)

end Loader
