import SimplrOS.ByteStore

/-!
# The segment loop of the boot loader

`efi_main` reads `kernel.elf` into a pool buffer, checks the magic and copies
every `PT_LOAD` segment to its address.  The loops take nothing from outside the
memory they write: the header count, the header address and the size bounds of
the two byte loops are read again in every round, as the source does.  Addresses
are `UINT64` and wrap.

The proof follows the loops.  As long as the buffer still holds the file, a round
stores a byte of a target range, which is apart from the buffer; so the buffer
holds the file to the end, and every header that is read is the file's own.
-/

namespace Loader

open ByteStore

/-! ## The source -/

/-- The 16-bit field at an address of memory. -/
def load16 (mem : Bytes) (a : UInt64) : UInt16 := word16 mem a.toNat

/-- The 32-bit field at an address of memory. -/
def load32 (mem : Bytes) (a : UInt64) : UInt32 := word32 mem a.toNat

/-- The 64-bit field at an address of memory. -/
def load64 (mem : Bytes) (a : UInt64) : UInt64 := word64 mem a.toNat

/-- Offsets of the fields of `Elf64_Ehdr` and `Elf64_Phdr` in use. -/
abbrev ePhoff : UInt64 := 32

/-- Offset of `e_phentsize` in the ELF header. -/
abbrev ePhentsize : UInt64 := 54

/-- Offset of `e_phnum`. -/
abbrev ePhnum : UInt64 := 56

/-- Offset of `p_offset` in a program header. -/
abbrev pOffset : UInt64 := 8

/-- Offset of `p_vaddr`. -/
abbrev pVaddr : UInt64 := 16

/-- Offset of `p_filesz`. -/
abbrev pFilesz : UInt64 := 32

/-- Offset of `p_memsz`. -/
abbrev pMemsz : UInt64 := 40

/-- `i * e_phentsize` is an `int` that is then widened with its sign; from `2^31`
on, where the source overflows, the two's complement value is taken. -/
def entryOffset (i phentsize : UInt16) : UInt64 :=
  let product := i.toNat * phentsize.toNat
  if product < 2147483648 then UInt64.ofNat product else UInt64.ofNat product - 4294967296

/-- `phdr` of round `i`. -/
def phdrAddr (mem : Bytes) (kernel : UInt64) (i : UInt16) : UInt64 :=
  kernel + load64 mem (kernel + ePhoff) + entryOffset i (load16 mem (kernel + ePhentsize))

theorem round_lt {j n : UInt64} (h : j < n) : 2 ^ 64 - (j + 1).toNat < 2 ^ 64 - j.toNat := by
  have hlt := UInt64.lt_iff_toNat_lt.mp h
  have hn := n.toNat_lt
  have hone : (1 : UInt64).toNat = 1 := rfl
  rw [UInt64.toNat_add, hone]
  omega

/-- `for (j = …; j < phdr->p_filesz; j++) dest[j] = src[j];` -/
def copyLoop (mem : Bytes) (phdr dest src j : UInt64) : Bytes :=
  if _h : j < load64 mem (phdr + pFilesz) then
    copyLoop (put mem (dest + j).toNat (mem (src + j).toNat)) phdr dest src (j + 1)
  else mem
termination_by 2 ^ 64 - j.toNat
decreasing_by exact round_lt _h

/-- `for (j = …; j < phdr->p_memsz; j++) dest[j] = 0;` -/
def zeroLoop (mem : Bytes) (phdr dest j : UInt64) : Bytes :=
  if _h : j < load64 mem (phdr + pMemsz) then
    zeroLoop (put mem (dest + j).toNat 0) phdr dest (j + 1)
  else mem
termination_by 2 ^ 64 - j.toNat
decreasing_by exact round_lt _h

/-- One round of the segment loop. -/
def loadSegment (mem : Bytes) (kernel : UInt64) (i : UInt16) : Bytes :=
  let phdr := phdrAddr mem kernel i
  if load32 mem phdr = 1 then
    let dest := load64 mem (phdr + pVaddr)
    let src := kernel + load64 mem (phdr + pOffset)
    let mem := copyLoop mem phdr dest src 0
    zeroLoop mem phdr dest (load64 mem (phdr + pFilesz))
  else mem

theorem header_lt {i n : UInt16} (h : i < n) : 2 ^ 16 - (i + 1).toNat < 2 ^ 16 - i.toNat := by
  have hlt := UInt16.lt_iff_toNat_lt.mp h
  have hn := n.toNat_lt
  have hone : (1 : UInt16).toNat = 1 := rfl
  rw [UInt16.toNat_add, hone]
  omega

/-- The segment loop from header `i` on. -/
def segmentLoop (mem : Bytes) (kernel : UInt64) (i : UInt16) : Bytes :=
  if _h : i < load16 mem (kernel + ePhnum) then
    segmentLoop (loadSegment mem kernel i) kernel (i + 1)
  else mem
termination_by 2 ^ 16 - i.toNat
decreasing_by exact header_lt _h

/-- The magic check and the segment loop; `none` is `EFI_LOAD_ERROR`. -/
def loadKernel (mem : Bytes) (kernel : UInt64) : Option Bytes :=
  if mem kernel.toNat ≠ 0x7f ∨ mem (kernel + 1).toNat ≠ 69 ∨ mem (kernel + 2).toNat ≠ 76 ∨
      mem (kernel + 3).toNat ≠ 70 then none
  else some (segmentLoop mem kernel 0)

/-! ## ELF files -/

/-- The program header fields in use. -/
structure Phdr where
  type : UInt32
  offset : UInt64
  vaddr : UInt64
  filesz : UInt64
  memsz : UInt64

/-- Where the file says its program headers start. -/
def phoff (file : Bytes) : Nat := (word64 file 32).toNat

/-- The stride of the program headers, as the file says. -/
def phentsize (file : Bytes) : Nat := (word16 file 54).toNat

/-- The number of program headers, as the file says. -/
def phnum (file : Bytes) : Nat := (word16 file 56).toNat

/-- Where header `i` is in the file. -/
def phdrPos (file : Bytes) (i : Nat) : Nat := phoff file + i * phentsize file

/-- Program header `i` of the file. -/
def phdr (file : Bytes) (i : Nat) : Phdr where
  type := word32 file (phdrPos file i)
  offset := word64 file (phdrPos file i + 8)
  vaddr := word64 file (phdrPos file i + 16)
  filesz := word64 file (phdrPos file i + 32)
  memsz := word64 file (phdrPos file i + 40)

/-- Header `i` is a `PT_LOAD` one. -/
def IsLoad (file : Bytes) (i : Nat) : Prop := i < phnum file ∧ (phdr file i).type = 1

/-- The target range of a header. -/
def Phdr.Covers (p : Phdr) (x : Nat) : Prop :=
  p.vaddr.toNat ≤ x ∧ x < p.vaddr.toNat + p.memsz.toNat

instance (p : Phdr) (x : Nat) : Decidable (p.Covers x) := inferInstanceAs (Decidable (_ ∧ _))

theorem Phdr.covers_add {p : Phdr} {k : Nat} (hk : k < p.memsz.toNat) :
    p.Covers (p.vaddr.toNat + k) := ⟨by omega, by omega⟩

/-- The file is well formed. -/
structure WellFormed (size : Nat) (file : Bytes) : Prop where
  header : 64 ≤ size
  small : size < 2 ^ 31
  entry : 56 ≤ phentsize file
  table : phoff file + phnum file * phentsize file ≤ size
  inFile : ∀ i, IsLoad file i → (phdr file i).offset.toNat + (phdr file i).filesz.toNat ≤ size
  sizes : ∀ i, IsLoad file i → (phdr file i).filesz.toNat ≤ (phdr file i).memsz.toNat
  noWrap : ∀ i, IsLoad file i → (phdr file i).vaddr.toNat + (phdr file i).memsz.toNat ≤ 2 ^ 64
  disjoint : ∀ i j x, IsLoad file i → IsLoad file j →
    (phdr file i).Covers x → (phdr file j).Covers x → i = j

/-- The buffer from `AllocatePool` holds the file and is apart from all targets. -/
structure Buffered (size : Nat) (file : Bytes) (kernel : UInt64) (mem : Bytes) : Prop where
  inside : kernel.toNat + size ≤ 2 ^ 64
  holds : ∀ k, k < size → mem (kernel.toNat + k) = file k
  apart : ∀ i k, IsLoad file i → k < size → ¬ (phdr file i).Covers (kernel.toNat + k)

/-- After the first `n` headers: their segments are in place, and nothing else
has changed. -/
structure LoadedUpTo (file : Bytes) (n : Nat) (mem mem' : Bytes) : Prop where
  content : ∀ i k, i < n → IsLoad file i → k < (phdr file i).filesz.toNat →
    mem' ((phdr file i).vaddr.toNat + k) = file ((phdr file i).offset.toNat + k)
  zeros : ∀ i k, i < n → IsLoad file i → (phdr file i).filesz.toNat ≤ k →
    k < (phdr file i).memsz.toNat → mem' ((phdr file i).vaddr.toNat + k) = 0
  unchanged : ∀ x, (∀ i, i < n → IsLoad file i → ¬ (phdr file i).Covers x) → mem' x = mem x

/-- Every segment is in place, and nothing outside the target ranges has changed. -/
def Loaded (file mem mem' : Bytes) : Prop := LoadedUpTo file (phnum file) mem mem'

/-! ## Reading headers from the buffer -/

section Buffer

variable {size : Nat} {file mem : Bytes} {kernel : UInt64}

theorem toNat_add_of_lt {a b : UInt64} (h : a.toNat + b.toNat < 2 ^ 64) :
    (a + b).toNat = a.toNat + b.toNat := by
  rw [UInt64.toNat_add]
  exact Nat.mod_eq_of_lt h

/-- A word inside the buffer is the file's. -/
theorem Buffered.leNat_eq (h : Buffered size file kernel mem) {k w : Nat} (hk : k + w ≤ size) :
    leNat mem (kernel.toNat + k) w = leNat file k w := by
  apply leNat_ext
  intro i hi
  rw [Nat.add_assoc]
  exact h.holds (k + i) (by omega)

theorem Buffered.header_addr (h : Buffered size file kernel mem) (hf : WellFormed size file)
    {off : UInt64} (hoff : off.toNat < 64) : (kernel + off).toNat = kernel.toNat + off.toNat := by
  have hheader := hf.header
  have hinside := h.inside
  exact toNat_add_of_lt (by omega)

theorem Buffered.phoff_eq (h : Buffered size file kernel mem) (hf : WellFormed size file) :
    (load64 mem (kernel + ePhoff)).toNat = phoff file := by
  have hheader := hf.header
  have hoff : ePhoff.toNat = 32 := rfl
  rw [load64, h.header_addr hf (by omega), hoff, word64, h.leNat_eq (by omega)]
  rfl

theorem Buffered.phentsize_eq (h : Buffered size file kernel mem) (hf : WellFormed size file) :
    (load16 mem (kernel + ePhentsize)).toNat = phentsize file := by
  have hheader := hf.header
  have hoff : ePhentsize.toNat = 54 := rfl
  rw [load16, h.header_addr hf (by omega), hoff, word16, h.leNat_eq (by omega)]
  rfl

theorem Buffered.phnum_eq (h : Buffered size file kernel mem) (hf : WellFormed size file) :
    (load16 mem (kernel + ePhnum)).toNat = phnum file := by
  have hheader := hf.header
  have hoff : ePhnum.toNat = 56 := rfl
  rw [load16, h.header_addr hf (by omega), hoff, word16, h.leNat_eq (by omega)]
  rfl

/-- Every header lies inside the file. -/
theorem WellFormed.phdr_in (hf : WellFormed size file) {i : Nat} (hi : i < phnum file) :
    phdrPos file i + 56 ≤ size ∧ i * phentsize file < 2 ^ 31 := by
  have hentry := hf.entry
  have htable := hf.table
  have hsmall := hf.small
  have hmul : (i + 1) * phentsize file ≤ phnum file * phentsize file :=
    Nat.mul_le_mul_right _ hi
  rw [Nat.add_mul, Nat.one_mul] at hmul
  rw [phdrPos]
  omega

/-- The address of header `i` is where the file puts it. -/
theorem Buffered.phdrAddr_eq (h : Buffered size file kernel mem) (hf : WellFormed size file)
    {i : UInt16} (hi : i.toNat < phnum file) :
    (phdrAddr mem kernel i).toNat = kernel.toNat + phdrPos file i.toNat := by
  have hinside := h.inside
  obtain ⟨hin, hproduct⟩ := hf.phdr_in hi
  rw [phdrPos] at hin
  have hoffset : (entryOffset i (load16 mem (kernel + ePhentsize))).toNat =
      i.toNat * phentsize file := by
    rw [entryOffset, h.phentsize_eq hf, if_pos (by omega), UInt64.toNat_ofNat']
    omega
  have hphoff := h.phoff_eq hf
  have hfirst : (kernel + load64 mem (kernel + ePhoff)).toNat = kernel.toNat + phoff file := by
    rw [toNat_add_of_lt (by omega), hphoff]
  rw [phdrAddr, toNat_add_of_lt (by omega), hfirst, hoffset, phdrPos]
  omega

/-- A 64-bit field of a header, read through the buffer. -/
theorem Buffered.field_eq (h : Buffered size file kernel mem) (hf : WellFormed size file)
    {i : UInt16} (hi : i.toNat < phnum file) {a off : UInt64}
    (ha : a.toNat = kernel.toNat + phdrPos file i.toNat) (hoff : off.toNat + 8 ≤ 56) :
    load64 mem (a + off) = word64 file (phdrPos file i.toNat + off.toNat) := by
  have hinside := h.inside
  have hin := (hf.phdr_in hi).1
  have haddr : (a + off).toNat = kernel.toNat + (phdrPos file i.toNat + off.toNat) := by
    rw [toNat_add_of_lt (by omega)]
    omega
  rw [load64, haddr, word64, word64, h.leNat_eq (by omega)]

/-- The loader sees the type that the file gives header `i`. -/
theorem Buffered.type_eq (h : Buffered size file kernel mem) (hf : WellFormed size file)
    {i : UInt16} (hi : i.toNat < phnum file) :
    load32 mem (phdrAddr mem kernel i) = (phdr file i.toNat).type := by
  have hin := (hf.phdr_in hi).1
  rw [load32, h.phdrAddr_eq hf hi, word32, h.leNat_eq (by omega)]
  rfl

/-- A byte stored into a target range leaves the buffer alone. -/
theorem Buffered.put (h : Buffered size file kernel mem) {i x : Nat} (hi : IsLoad file i)
    (hx : (phdr file i).Covers x) (v : UInt8) :
    Buffered size file kernel (ByteStore.put mem x v) where
  inside := h.inside
  holds := by
    intro k hk
    have hne : kernel.toNat + k ≠ x := by
      intro heq
      subst heq
      exact h.apart i k hi hk hx
    rw [put_ne _ _ hne]
    exact h.holds k hk
  apart := h.apart

/-! ## The byte loops -/

/-- What the two byte loops need to know about round `i`. -/
structure Round (size : Nat) (file : Bytes) (kernel : UInt64) (i : UInt16) (a dest : UInt64) :
    Prop where
  load : IsLoad file i.toNat
  addr : a.toNat = kernel.toNat + phdrPos file i.toNat
  dest : dest = (phdr file i.toNat).vaddr

/-- Addresses inside a segment do not wrap. -/
theorem Round.dest_add {i : UInt16} {a dest j : UInt64} (hf : WellFormed size file)
    (hr : Round size file kernel i a dest) (hj : j.toNat < (phdr file i.toNat).memsz.toNat) :
    (dest + j).toNat = (phdr file i.toNat).vaddr.toNat + j.toNat := by
  have hwrap := hf.noWrap _ hr.load
  rw [hr.dest]
  exact toNat_add_of_lt (by omega)

theorem toNat_add_one_of_lt {j n : UInt64} (h : j < n) : (j + 1).toNat = j.toNat + 1 := by
  have hlt := UInt64.lt_iff_toNat_lt.mp h
  have hn := n.toNat_lt
  have hone : (1 : UInt64).toNat = 1 := rfl
  rw [toNat_add_of_lt (by omega), hone]

/-- **Copy loop.**  The buffer is intact throughout and the rest of the file's
bytes arrive. -/
theorem copyLoop_spec {mem : Bytes} (hf : WellFormed size file) {i : UInt16}
    {a dest src j : UInt64} (hr : Round size file kernel i a dest)
    (h : Buffered size file kernel mem) (hsrc : src = kernel + (phdr file i.toNat).offset)
    (hj : j.toNat ≤ (phdr file i.toNat).filesz.toNat) :
    Buffered size file kernel (copyLoop mem a dest src j) ∧
    ∀ x, copyLoop mem a dest src j x =
      if (phdr file i.toNat).vaddr.toNat + j.toNat ≤ x ∧
          x < (phdr file i.toNat).vaddr.toNat + (phdr file i.toNat).filesz.toNat
      then file ((phdr file i.toNat).offset.toNat + (x - (phdr file i.toNat).vaddr.toNat))
      else mem x := by
  have hsizes := hf.sizes _ hr.load
  induction hleft : (phdr file i.toNat).filesz.toNat - j.toNat generalizing mem j with
  | zero =>
      have hfilesz : load64 mem (a + pFilesz) = (phdr file i.toNat).filesz :=
        h.field_eq hf hr.load.1 hr.addr (by decide)
      have hdone : ¬ j < (phdr file i.toNat).filesz :=
        UInt64.not_lt.mpr (UInt64.le_iff_toNat_le.mpr (by omega))
      unfold copyLoop
      rw [hfilesz, dif_neg hdone]
      refine ⟨h, fun x => ?_⟩
      rw [if_neg (by omega)]
  | succ left ih =>
      have hfilesz : load64 mem (a + pFilesz) = (phdr file i.toNat).filesz :=
        h.field_eq hf hr.load.1 hr.addr (by decide)
      have hlt : j < (phdr file i.toNat).filesz := UInt64.lt_iff_toNat_lt.mpr (by omega)
      have hnext := toNat_add_one_of_lt hlt
      have hdest := hr.dest_add hf (j := j) (by omega)
      -- The source byte is still the file's.
      have hbyte : mem (src + j).toNat = file ((phdr file i.toNat).offset.toNat + j.toNat) := by
        have hin := hf.inFile _ hr.load
        have hinside := h.inside
        have hfirst : src.toNat = kernel.toNat + (phdr file i.toNat).offset.toNat := by
          rw [hsrc, toNat_add_of_lt (by omega)]
        rw [toNat_add_of_lt (by omega), hfirst, Nat.add_assoc]
        exact h.holds _ (by omega)
      have hput := h.put hr.load (Phdr.covers_add (k := j.toNat) (by omega)) (mem (src + j).toNat)
      obtain ⟨hholds, hbytes⟩ := ih hput (j := j + 1) (by omega) (by omega)
      unfold copyLoop
      rw [hfilesz, dif_pos hlt, hdest]
      refine ⟨hholds, fun x => ?_⟩
      rw [hbytes x, hnext]
      by_cases hx : x = (phdr file i.toNat).vaddr.toNat + j.toNat
      · rw [hx, if_neg (by omega), if_pos (by omega), put_same, hbyte, Nat.add_sub_cancel_left]
      · rw [put_ne _ _ hx]
        by_cases hlate : (phdr file i.toNat).vaddr.toNat + (j.toNat + 1) ≤ x ∧
            x < (phdr file i.toNat).vaddr.toNat + (phdr file i.toNat).filesz.toNat
        · rw [if_pos hlate, if_pos (by omega)]
        · rw [if_neg hlate, if_neg (by omega)]

/-- **Zero loop.**  The buffer is intact throughout and the rest of the target
range is cleared. -/
theorem zeroLoop_spec {mem : Bytes} (hf : WellFormed size file) {i : UInt16}
    {a dest j : UInt64} (hr : Round size file kernel i a dest)
    (h : Buffered size file kernel mem) (hj : j.toNat ≤ (phdr file i.toNat).memsz.toNat) :
    Buffered size file kernel (zeroLoop mem a dest j) ∧
    ∀ x, zeroLoop mem a dest j x =
      if (phdr file i.toNat).vaddr.toNat + j.toNat ≤ x ∧
          x < (phdr file i.toNat).vaddr.toNat + (phdr file i.toNat).memsz.toNat
      then 0 else mem x := by
  induction hleft : (phdr file i.toNat).memsz.toNat - j.toNat generalizing mem j with
  | zero =>
      have hmemsz : load64 mem (a + pMemsz) = (phdr file i.toNat).memsz :=
        h.field_eq hf hr.load.1 hr.addr (by decide)
      have hdone : ¬ j < (phdr file i.toNat).memsz :=
        UInt64.not_lt.mpr (UInt64.le_iff_toNat_le.mpr (by omega))
      unfold zeroLoop
      rw [hmemsz, dif_neg hdone]
      refine ⟨h, fun x => ?_⟩
      rw [if_neg (by omega)]
  | succ left ih =>
      have hmemsz : load64 mem (a + pMemsz) = (phdr file i.toNat).memsz :=
        h.field_eq hf hr.load.1 hr.addr (by decide)
      have hltNat : j.toNat < (phdr file i.toNat).memsz.toNat := by omega
      have hlt : j < (phdr file i.toNat).memsz := UInt64.lt_iff_toNat_lt.mpr hltNat
      have hnext := toNat_add_one_of_lt hlt
      have hdest := hr.dest_add hf hltNat
      have hput := h.put hr.load (Phdr.covers_add hltNat) 0
      obtain ⟨hholds, hbytes⟩ := ih hput (j := j + 1) (by omega) (by omega)
      unfold zeroLoop
      rw [hmemsz, dif_pos hlt, hdest]
      refine ⟨hholds, fun x => ?_⟩
      rw [hbytes x, hnext]
      by_cases hx : x = (phdr file i.toNat).vaddr.toNat + j.toNat
      · rw [hx, if_neg (by omega), if_pos (by omega), put_same]
      · rw [put_ne _ _ hx]
        by_cases hlate : (phdr file i.toNat).vaddr.toNat + (j.toNat + 1) ≤ x ∧
            x < (phdr file i.toNat).vaddr.toNat + (phdr file i.toNat).memsz.toNat
        · rw [if_pos hlate, if_pos (by omega)]
        · rw [if_neg hlate, if_neg (by omega)]

/-! ## The segment loop -/

/-- What the loop has stored so far leaves the buffer as it was. -/
theorem LoadedUpTo.buffered {n : Nat} {mem mem' : Bytes} (h : LoadedUpTo file n mem mem')
    (hb : Buffered size file kernel mem) : Buffered size file kernel mem' where
  inside := hb.inside
  holds := by
    intro k hk
    rw [h.unchanged _ fun i _ hload => hb.apart i k hload hk]
    exact hb.holds k hk
  apart := hb.apart

/-- A round with a `PT_LOAD` header fills its target range and changes nothing
else. -/
theorem loadSegment_apply {mem : Bytes} (hf : WellFormed size file)
    (h : Buffered size file kernel mem) {i : UInt16} (hi : IsLoad file i.toNat) (x : Nat) :
    loadSegment mem kernel i x =
      if (phdr file i.toNat).Covers x then
        if x < (phdr file i.toNat).vaddr.toNat + (phdr file i.toNat).filesz.toNat then
          file ((phdr file i.toNat).offset.toNat + (x - (phdr file i.toNat).vaddr.toNat))
        else 0
      else mem x := by
  have haddr := h.phdrAddr_eq hf hi.1
  have hsizes := hf.sizes _ hi
  have hfield : ∀ off : UInt64, off.toNat + 8 ≤ 56 → load64 mem (phdrAddr mem kernel i + off) =
      word64 file (phdrPos file i.toNat + off.toNat) :=
    fun off hoff => h.field_eq hf hi.1 haddr hoff
  have hdest : load64 mem (phdrAddr mem kernel i + pVaddr) = (phdr file i.toNat).vaddr :=
    hfield _ (by decide)
  have hoffset : load64 mem (phdrAddr mem kernel i + pOffset) = (phdr file i.toNat).offset :=
    hfield _ (by decide)
  have hr : Round size file kernel i (phdrAddr mem kernel i) (phdr file i.toNat).vaddr :=
    ⟨hi, haddr, rfl⟩
  obtain ⟨hcopied, hcopy⟩ := copyLoop_spec hf hr h (j := 0) (congrArg (kernel + ·) hoffset)
    (Nat.zero_le _)
  unfold loadSegment
  rw [if_pos ((h.type_eq hf hi.1).trans hi.2), hdest]
  generalize copyLoop mem (phdrAddr mem kernel i) (phdr file i.toNat).vaddr
    (kernel + load64 mem (phdrAddr mem kernel i + pOffset)) 0 = copied at hcopied hcopy ⊢
  have hfilesz : load64 copied (phdrAddr mem kernel i + pFilesz) = (phdr file i.toNat).filesz :=
    hcopied.field_eq hf hi.1 haddr (by decide)
  rw [hfilesz, (zeroLoop_spec hf hr hcopied hsizes).2 x, hcopy x]
  have hzero : (0 : UInt64).toNat = 0 := rfl
  rw [hzero, Nat.add_zero]
  by_cases hcovers : (phdr file i.toNat).Covers x
  · obtain ⟨hlow, hhigh⟩ := id hcovers
    rw [if_pos hcovers]
    by_cases hmid : x < (phdr file i.toNat).vaddr.toNat + (phdr file i.toNat).filesz.toNat
    · rw [if_neg (by omega), if_pos ⟨hlow, hmid⟩, if_pos hmid]
    · rw [if_pos ⟨by omega, hhigh⟩, if_neg hmid]
  · have hout : ¬ ((phdr file i.toNat).vaddr.toNat ≤ x ∧
        x < (phdr file i.toNat).vaddr.toNat + (phdr file i.toNat).memsz.toNat) := hcovers
    rw [if_neg hcovers, if_neg (by omega), if_neg (by omega)]

/-- **Step lemma.**  One round adds its segment and keeps the earlier ones. -/
theorem LoadedUpTo.step {mem mem' : Bytes} {i : UInt16} (hf : WellFormed size file)
    (hb : Buffered size file kernel mem) (h : LoadedUpTo file i.toNat mem mem')
    (hi : i.toNat < phnum file) :
    LoadedUpTo file (i.toNat + 1) mem (loadSegment mem' kernel i) := by
  have hb' := h.buffered hb
  by_cases htype : (phdr file i.toNat).type = 1
  · have hload : IsLoad file i.toNat := ⟨hi, htype⟩
    have happly := loadSegment_apply hf hb' hload
    have hearlier : ∀ j x, j < i.toNat → IsLoad file j → (phdr file j).Covers x →
        ¬ (phdr file i.toNat).Covers x := by
      intro j x hj hjload hjx hix
      have := hf.disjoint j i.toNat x hjload hload hjx hix
      omega
    have hsizes := hf.sizes _ hload
    refine ⟨?_, ?_, ?_⟩
    · intro j k hj hjload hk
      by_cases hji : j = i.toNat
      · subst hji
        rw [happly, if_pos (Phdr.covers_add (k := k) (by omega)), if_pos (by omega),
          Nat.add_sub_cancel_left]
      · have hjsizes := hf.sizes _ hjload
        rw [happly, if_neg (hearlier j _ (by omega) hjload (Phdr.covers_add (k := k) (by omega)))]
        exact h.content j k (by omega) hjload hk
    · intro j k hj hjload hlo hk
      by_cases hji : j = i.toNat
      · subst hji
        rw [happly, if_pos (Phdr.covers_add hk), if_neg (by omega)]
      · rw [happly, if_neg (hearlier j _ (by omega) hjload (Phdr.covers_add (k := k) (by omega)))]
        exact h.zeros j k (by omega) hjload hlo hk
    · intro x hx
      rw [happly, if_neg (hx i.toNat (by omega) hload)]
      exact h.unchanged x fun j hj hjload => hx j (by omega) hjload
  · have hskip : loadSegment mem' kernel i = mem' := by
      unfold loadSegment
      exact if_neg (by rw [hb'.type_eq hf hi]; exact htype)
    have hnew : ∀ j, j < i.toNat + 1 → IsLoad file j → j < i.toNat := by
      intro j hj hjload
      have hne : j ≠ i.toNat := by
        intro heq
        subst heq
        exact htype hjload.2
      omega
    rw [hskip]
    exact ⟨fun j k hj hjload => h.content j k (hnew j hj hjload) hjload,
      fun j k hj hjload => h.zeros j k (hnew j hj hjload) hjload,
      fun x hx => h.unchanged x fun j hj hjload => hx j (by omega) hjload⟩

/-- **Run lemma.**  From any header on, the loop completes the loading. -/
theorem segmentLoop_loaded {mem mem' : Bytes} {i : UInt16} (hf : WellFormed size file)
    (hb : Buffered size file kernel mem) (h : LoadedUpTo file i.toNat mem mem')
    (hi : i.toNat ≤ phnum file) : Loaded file mem (segmentLoop mem' kernel i) := by
  induction hleft : phnum file - i.toNat generalizing mem' i with
  | zero =>
      have hphnum := (h.buffered hb).phnum_eq hf
      have hdone : ¬ i < load16 mem' (kernel + ePhnum) :=
        UInt16.not_lt.mpr (UInt16.le_iff_toNat_le.mpr (by omega))
      have hall : i.toNat = phnum file := by omega
      unfold segmentLoop
      rw [dif_neg hdone, Loaded, ← hall]
      exact h
  | succ left ih =>
      have hphnum := (h.buffered hb).phnum_eq hf
      have hlt : i < load16 mem' (kernel + ePhnum) := UInt16.lt_iff_toNat_lt.mpr (by omega)
      have hmax := (load16 mem' (kernel + ePhnum)).toNat_lt
      have hone : (1 : UInt16).toNat = 1 := rfl
      have hnext : (i + 1).toNat = i.toNat + 1 := by
        rw [UInt16.toNat_add, hone]
        omega
      have hstep := h.step hf hb (by omega)
      rw [← hnext] at hstep
      unfold segmentLoop
      rw [dif_pos hlt]
      exact ih hstep (by omega) (by omega)

end Buffer

/-- A file with one segment of four bytes, loaded to 4096 and cleared up to
eight bytes. -/
def sampleFile : Bytes :=
  let header : List UInt8 := [0x7f, 69, 76, 70]
  let fields : List (Nat × UInt8) :=
    [(32, 64), (54, 56), (56, 1), (64, 1), (81, 16), (96, 4), (104, 8)]
  fun x => header.getD x ((fields.lookup x).getD 0)

/-- A memory with the file in a buffer at 8192 and garbage elsewhere. -/
def sampleMem : Bytes :=
  fun x => if 8192 ≤ x ∧ x < 8192 + 120 then sampleFile (x - 8192) else 0xaa

theorem sampleFile_load {i : Nat} (h : IsLoad sampleFile i) : i = 0 := by
  have hnum : phnum sampleFile = 1 := by decide
  have hlt := h.1
  omega

theorem sampleFile_wellFormed : WellFormed 120 sampleFile where
  header := by decide
  small := by decide
  entry := by decide
  table := by decide
  inFile := by
    intro i hi
    rw [sampleFile_load hi]
    decide
  sizes := by
    intro i hi
    rw [sampleFile_load hi]
    decide
  noWrap := by
    intro i hi
    rw [sampleFile_load hi]
    decide
  disjoint := by
    intro i j x hi hj _ _
    rw [sampleFile_load hi, sampleFile_load hj]

theorem sampleMem_buffered : Buffered 120 sampleFile 8192 sampleMem where
  inside := by decide
  holds := by
    intro k hk
    have haddr : (8192 : UInt64).toNat = 8192 := rfl
    rw [haddr, sampleMem, if_pos (by omega), Nat.add_sub_cancel_left]
  apart := by
    intro i k hi hk hcovers
    rw [sampleFile_load hi] at hcovers
    have haddr : (8192 : UInt64).toNat = 8192 := rfl
    have hvaddr : (phdr sampleFile 0).vaddr.toNat = 4096 := by decide
    have hmemsz : (phdr sampleFile 0).memsz.toNat = 8 := by decide
    obtain ⟨_, hhigh⟩ := hcovers
    omega

/-- **Loader correctness.**  For a well-formed file in a buffer apart from all
target ranges, the segment loop puts every `PT_LOAD` segment in place, clears its
tail and changes nothing outside the target ranges; with the magic in front, the
loader accepts the file and runs that loop. -/
theorem segmentLoop_correct {size : Nat} {file mem : Bytes} {kernel : UInt64}
    (hf : WellFormed size file) (hb : Buffered size file kernel mem) :
    Loaded file mem (segmentLoop mem kernel 0) ∧
      (file 0 = 0x7f → file 1 = 69 → file 2 = 76 → file 3 = 70 →
        loadKernel mem kernel = some (segmentLoop mem kernel 0)) := by
  constructor
  · have hstart : LoadedUpTo file (0 : UInt16).toNat mem mem :=
      ⟨fun i k hi => absurd hi (Nat.not_lt_zero i), fun i k hi => absurd hi (Nat.not_lt_zero i),
        fun x _ => rfl⟩
    exact segmentLoop_loaded hf hb hstart (Nat.zero_le _)
  · intro h0 h1 h2 h3
    have hheader := hf.header
    have hbyte : ∀ off : UInt64, off.toNat < 64 → mem (kernel + off).toNat = file off.toNat := by
      intro off hoff
      rw [hb.header_addr hf hoff]
      exact hb.holds _ (by omega)
    have hb0 := hb.holds 0 (by omega)
    have hb1 : mem (kernel + 1).toNat = file 1 := hbyte 1 (by decide)
    have hb2 : mem (kernel + 2).toNat = file 2 := hbyte 2 (by decide)
    have hb3 : mem (kernel + 3).toNat = file 3 := hbyte 3 (by decide)
    rw [Nat.add_zero] at hb0
    rw [loadKernel, hb0, hb1, hb2, hb3, h0, h1, h2, h3]
    rfl

theorem segmentLoop_correct_sample :
    Loaded sampleFile sampleMem (segmentLoop sampleMem 8192 0) ∧
      loadKernel sampleMem 8192 = some (segmentLoop sampleMem 8192 0) := by
  have hall := segmentLoop_correct sampleFile_wellFormed sampleMem_buffered
  exact ⟨hall.1, hall.2 rfl rfl rfl rfl⟩

end Loader
