import SimplrOS.Interaction
import SimplrOS.LoaderBounds

/-!
# The boot loader and the firmware

`efi_main` as a program over its calls: those to the firmware, its reads and writes of
memory that matter later, and the jump into the kernel.  An interface pointer or a file
handle is a number that the firmware gives out.

The firmware may fail at any call, may allocate and write its own memory at any call
and in between, and may give out any numbers.  It keeps to what it promises: live pool
blocks are not its own, a block it hands out is apart from them, a read delivers the
file, and `ExitBootServices` succeeds exactly with the key of the current memory map.

One thing more is assumed that nobody promises.  `efi_main` stores the segments of
`kernel.elf` where the file wants them and never allocates this memory, so it can only
work where neither the firmware nor a pool block uses it.  The fields `targets` of
`Quiet` and `Block.Free` say so.
-/

namespace Loader

open ByteStore Interaction

/-! ## Calls -/

/-- The protocols that `efi_main` asks a handle for. -/
inductive Protocol
  | loadedImage
  | simpleFileSystem
deriving DecidableEq

/-- `BootInfo`. -/
structure BootInfo where
  framebuffer : UInt64
  width : UInt32
  height : UInt32
  pixelsPerScanline : UInt32
deriving DecidableEq

/-- What `efi_main` does one after the other.  The pointer `Gop` may be unset. -/
inductive BootCall
  | print (text : String) (values : List UInt64)
  | handleProtocol (handle : UInt64) (protocol : Protocol)
  | deviceHandle (loadedImage : UInt64)
  | openVolume (fileSystem : UInt64)
  | openFile (root : UInt64) (name : String)
  | allocatePool (size : UInt64)
  | getInfo (file size buffer : UInt64)
  | fileSize (info : UInt64)
  | freePool (buffer : UInt64)
  | readFile (file size buffer : UInt64)
  | close (file : UInt64)
  | checkMagic (kernel : UInt64)
  | loadSegments (kernel : UInt64)
  | locateProtocol
  | setMode (gop : UInt64)
  | bytesAt (address : UInt64) (count : Nat)
  | readMode (gop : Option UInt64)
  | entryPoint (kernel : UInt64)
  | getMemoryMap (size buffer : UInt64)
  | exitBootServices (handle key : UInt64)
  | kernelStart (entry : UInt64) (info : BootInfo)

/-- What `GetMemoryMap` answers. -/
structure MapReply where
  status : UInt64
  size : UInt64
  key : UInt64
  descriptorSize : UInt64

/-- Statuses come with the out-parameters. -/
abbrev BootCall.Reply : BootCall → Type
  | .print _ _ => Unit
  | .handleProtocol _ _ => UInt64 × UInt64
  | .deviceHandle _ => UInt64
  | .openVolume _ => UInt64 × UInt64
  | .openFile _ _ => UInt64 × UInt64
  | .allocatePool _ => UInt64
  | .getInfo _ _ _ => UInt64
  | .fileSize _ => UInt64
  | .freePool _ => Unit
  | .readFile _ _ _ => UInt64
  | .close _ => Unit
  | .checkMagic _ => Bool
  | .loadSegments _ => Unit
  | .locateProtocol => UInt64 × UInt64
  | .setMode _ => UInt64
  | .bytesAt _ _ => List UInt8
  | .readMode _ => BootInfo
  | .entryPoint _ => UInt64
  | .getMemoryMap _ _ => MapReply
  | .exitBootServices _ _ => UInt64
  | .kernelStart _ _ => Unit

/-- `EFI_ERROR`: the highest bit is set. -/
def efiError (status : UInt64) : Bool := 0x8000000000000000 ≤ status

/-- `EFI_LOAD_ERROR`. -/
abbrev efiLoadError : UInt64 := 0x8000000000000001

/-- `EFI_OUT_OF_RESOURCES`. -/
abbrev efiOutOfResources : UInt64 := 0x8000000000000009

/-! ## The source -/

/-- `efi_main` returns a status, or ends in the loop behind the jump. -/
inductive Exit
  | returned (status : UInt64)
  | looping
deriving DecidableEq

/-- A part of `efi_main`. -/
abbrev BootProg : Type := Prog BootCall BootCall.Reply Exit

/-- A message and the return. -/
def fail (text : String) (status : UInt64) : BootProg :=
  .call (.print text []) fun _ => .ret (.returned status)

/-- `sizeof(EFI_FILE_INFO) + sizeof(CHAR16) * 256`. -/
abbrev fileInfoSize : UInt64 := 88 + 2 * 256

/-- From the memory map on. -/
def leaveFirmware (imageHandle entry : UInt64) (info : BootInfo) : BootProg :=
  .call (.getMemoryMap 0 0) fun first =>
  let memoryMapSize := first.size + 2 * first.descriptorSize
  .call (.allocatePool memoryMapSize) fun memoryMap =>
  .call (.getMemoryMap memoryMapSize memoryMap) fun map =>
  if efiError map.status then fail "Failed to get memory map\n" map.status else
  .call (.exitBootServices imageHandle map.key) fun status =>
  if efiError status then fail "Failed to exit boot services\n" status else
  .call (.kernelStart entry info) fun _ =>
  .ret .looping

/-- From the graphics output on; without `SetMode`, `Gop` is unset. -/
def startKernel (imageHandle kernelBuffer : UInt64) : BootProg :=
  .call .locateProtocol fun (status, found) =>
  let gop := if efiError status then none else some found
  let rest : BootProg :=
    .call (.bytesAt 0x100000 4) fun bytes =>
    .call (.print "Bytes at 0x100000: %02x %02x %02x %02x\n" (bytes.map UInt8.toUInt64)) fun _ =>
    .call (.readMode gop) fun info =>
    .call (.entryPoint kernelBuffer) fun entry =>
    leaveFirmware imageHandle entry info
  match gop with
  | some gop => .call (.setMode gop) fun _ => rest
  | none => rest

/-- From the file handle on. -/
def loadFile (imageHandle kernelFile : UInt64) : BootProg :=
  .call (.allocatePool fileInfoSize) fun fileInfo =>
  .call (.getInfo kernelFile fileInfoSize fileInfo) fun status =>
  if efiError status then fail "Failed to get kernel file info\n" status else
  .call (.fileSize fileInfo) fun kernelSize =>
  .call (.freePool fileInfo) fun _ =>
  .call (.allocatePool kernelSize) fun kernelBuffer =>
  if kernelBuffer = 0 then
    fail "Failed to allocate memory for kernel\n" efiOutOfResources
  else
  .call (.readFile kernelFile kernelSize kernelBuffer) fun status =>
  if efiError status then fail "Failed to read kernel\n" status else
  .call (.close kernelFile) fun _ =>
  .call (.checkMagic kernelBuffer) fun valid =>
  if valid = false then fail "kernel.elf is not a valid ELF file\n" efiLoadError else
  .call (.entryPoint kernelBuffer) fun entry =>
  .call (.print "Kernel ELF valid. Entry point: 0x%lx\n" [entry]) fun _ =>
  .call (.loadSegments kernelBuffer) fun _ =>
  startKernel imageHandle kernelBuffer

/-- `efi_main`. -/
def efiMain (imageHandle : UInt64) : BootProg :=
  .call (.print "SimplrOS bootloader starting...\n" []) fun _ =>
  .call (.print "Hello from Simplr!\n" []) fun _ =>
  .call (.handleProtocol imageHandle .loadedImage) fun (status, loadedImage) =>
  if efiError status then fail "Failed to get loaded image protocol\n" status else
  .call (.deviceHandle loadedImage) fun device =>
  .call (.handleProtocol device .simpleFileSystem) fun (status, fileSystem) =>
  if efiError status then fail "Failed to get filesystem protocol\n" status else
  .call (.openVolume fileSystem) fun (status, root) =>
  if efiError status then fail "Failed to open volume\n" status else
  .call (.openFile root "kernel.elf") fun (status, kernelFile) =>
  if efiError status then fail "Failed to open kernel.elf\n" status else
  loadFile imageHandle kernelFile

/-! ## The machine -/

/-- A pool block: its address and its size. -/
abbrev Block : Type := UInt64 × UInt64

/-- The byte lies in the block. -/
def Block.Contains (b : Block) (x : Nat) : Prop := b.1.toNat ≤ x ∧ x < b.1.toNat + b.2.toNat

/-- The memory and what the firmware keeps for the boot loader. -/
structure Machine where
  mem : Bytes
  /-- the pool blocks in use -/
  pools : List Block
  /-- the interface pointers that have been given out -/
  interfaces : List UInt64
  /-- the files that are open -/
  files : List UInt64
  mode : BootInfo
  /-- the key of the current memory map -/
  key : UInt64
  exited : Bool
  /-- `LocateProtocol` has failed -/
  headless : Bool
  /-- an allocation has failed -/
  starved : Bool

/-- The machine as the boot loader finds it. -/
structure Machine.Fresh (s : Machine) : Prop where
  pools : s.pools = []
  awake : s.exited = false
  headless : s.headless = false
  starved : s.starved = false

/-- The memory under the segments of the file. -/
def Target (file : Bytes) (x : Nat) : Prop := ∃ i, IsLoad file i ∧ (phdr file i).Covers x

/-- The memory that the boot loader has allocated. -/
def Machine.Allocated (s : Machine) (x : Nat) : Prop := ∃ b ∈ s.pools, b.Contains x

/-- What the firmware may do on its own account. -/
structure Quiet (file : Bytes) (s s' : Machine) : Prop where
  mem : ∀ x, s.Allocated x → s'.mem x = s.mem x
  /-- assumed: the firmware does not use the memory under the segments -/
  targets : ∀ x, Target file x → s'.mem x = s.mem x
  pools : s'.pools = s.pools
  interfaces : ∀ p ∈ s.interfaces, p ∈ s'.interfaces
  files : s'.files = s.files
  mode : s'.mode = s.mode
  exited : s'.exited = s.exited
  headless : s'.headless = s.headless
  starved : s'.starved = s.starved

/-- A block may be handed out. -/
structure Block.Free (file : Bytes) (s : Machine) (b : Block) : Prop where
  inside : b.1.toNat + b.2.toNat ≤ 2 ^ 64
  apart : ∀ x, b.Contains x → ¬ s.Allocated x
  /-- assumed: no block lies in the memory under the segments -/
  targets : ∀ x, b.Contains x → ¬ Target file x

/-- Only the bytes of a buffer change. -/
def Fills (b : Block) (mem mem' : Bytes) : Prop := ∀ x, ¬ b.Contains x → mem' x = mem x

/-- What a call does and answers. -/
def Effect (file : Bytes) (size : Nat) (s : Machine) : (c : BootCall) → c.Reply → Machine → Prop
  | .print _ _, _, s' => s' = s
  | .handleProtocol _ _, r, s' => (efiError r.1 = false → r.2 ∈ s.interfaces) ∧ s' = s
  | .deviceHandle _, _, s' => s' = s
  | .openVolume _, r, s' => (efiError r.1 = false → r.2 ∈ s.interfaces) ∧ s' = s
  | .openFile _ _, r, s' =>
      s' = if efiError r.1 then s else { s with files := r.2 :: s.files }
  | .allocatePool n, r, s' =>
      (r = 0 ∧ s' = { s with starved := true }) ∨
        (r ≠ 0 ∧ Block.Free file s (r, n) ∧ s' = { s with pools := (r, n) :: s.pools })
  | .getInfo _ n buffer, r, s' => ∃ mem, Fills (buffer, n) s.mem mem ∧ s' = { s with mem := mem } ∧
      (efiError r = false → (load64 mem (buffer + 8)).toNat = size)
  | .fileSize info, r, s' => r = load64 s.mem (info + 8) ∧ s' = s
  | .freePool buffer, _, s' => s' = { s with pools := s.pools.filter fun b => b.1 ≠ buffer }
  | .readFile _ n buffer, r, s' => ∃ mem, Fills (buffer, n) s.mem mem ∧ s' = { s with mem := mem } ∧
      (efiError r = false → ∀ k, k < n.toNat → k < size → mem (buffer.toNat + k) = file k)
  | .close f, _, s' => s' = { s with files := s.files.filter fun g => g ≠ f }
  | .checkMagic kernel, r, s' => r = (loadKernel s.mem kernel).isSome ∧ s' = s
  | .loadSegments kernel, _, s' => s' = { s with mem := segmentLoop s.mem kernel 0 }
  | .locateProtocol, r, s' =>
      (efiError r.1 = false → r.2 ∈ s.interfaces) ∧ s' = { s with headless := efiError r.1 }
  | .setMode _, _, s' => ∃ mode, s' = { s with mode := mode }
  | .bytesAt a n, r, s' => r = (List.range n).map (fun i => s.mem (a.toNat + i)) ∧ s' = s
  | .readMode gop, r, s' => (∀ p ∈ gop, p ∈ s.interfaces → r = s.mode) ∧ s' = s
  | .entryPoint kernel, r, s' => r = load64 s.mem (kernel + eEntry) ∧ s' = s
  | .getMemoryMap n buffer, r, s' => ∃ mem, Fills (buffer, n) s.mem mem ∧
      (buffer = 0 → efiError r.status = true ∧ mem = s.mem) ∧ s' = { s with mem := mem } ∧
      (efiError r.status = false → r.key = s.key)
  | .exitBootServices _ key, r, s' =>
      (efiError r = true ↔ key ≠ s.key) ∧ s' = { s with exited := !efiError r }
  | .kernelStart _ _, _, s' => ∃ mem, s' = { s with mem := mem }

/-- The calls during which the firmware may do something else as well. -/
def BootCall.Busy : BootCall → Bool
  | .fileSize _ => false
  | .checkMagic _ => false
  | .loadSegments _ => false
  | .bytesAt _ _ => false
  | .readMode _ => false
  | .entryPoint _ => false
  | .getMemoryMap _ _ => false
  | .exitBootServices _ _ => false
  | .kernelStart _ _ => false
  | _ => true

/-- The firmware.  If it is `still`, its memory map changes during calls only. -/
def firmware (file : Bytes) (size : Nat) (still : Prop) :
    World BootCall BootCall.Reply Machine where
  answer s c r s' := ∃ s₁, (if c.Busy then Quiet file s s₁ else s₁ = s) ∧ Effect file size s₁ c r s'
  moves s s' := Quiet file s s' ∧ (still → s'.key = s.key)

end Loader
