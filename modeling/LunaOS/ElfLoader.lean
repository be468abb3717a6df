import LunaOS.UserspaceAllocator

/-! Loading an executable: `elfLoad` of `elf/elf.cpp` with the first thread of
the new process (`tasking/tasking.cpp`). The file is read into a buffer on the
kernel's stack; every copy out of that buffer is recorded with the bytes it
reads. A fault or a division by zero ends in a kernel panic. -/
namespace LunaOS.ElfLoader
open ByteMemory PageArithmetic PageTables RangeAllocator UserspaceAllocator

/-- `ELF_LOAD_STATUS` -/
inductive LoadStatus where
  | success
  | failedToOpen
  | invalidHeader
  | failedToRead
  | unsupportedElf
  deriving DecidableEq, Repr

/-! ## The file -/

/-- What `f_open`, `f_size` and `f_read` give, and what lies around the buffer. -/
structure ElfFile where
  opened : Bool
  readOk : Bool
  readBytes : BitVec 32
  contents : List Byte
  around : Addr → Byte

namespace ElfFile
variable (file : ElfFile)

def fileSize : Nat := file.contents.length

/-- `fileBuffer[index]`, inside the buffer or not. -/
def byte (index : Addr) : Byte := (file.contents[index.toNat]?).getD (file.around index)

def half (index : Addr) : BitVec 16 := file.byte (index + 1) ++ file.byte index
def word (index : Addr) : BitVec 32 := file.half (index + 2) ++ file.half index
def xword (index : Addr) : BitVec 64 := file.word (index + 4) ++ file.word index

end ElfFile

/-- A copy out of the buffer: `count` bytes from `offset` on. -/
structure Copy where
  offset : Addr
  count : Nat
  deriving DecidableEq, Repr

/-- `Elf64_Ehdr`, as far as the loader looks at it. -/
structure Elf64Ehdr where
  eIdent : List Byte
  eType : BitVec 16
  eMachine : BitVec 16
  eEntry : Addr
  ePhoff : BitVec 64
  ePhnum : BitVec 16

/-- `sizeof(Elf64_Ehdr)` -/
def ehdrSize : Nat := 64

def readHeader (file : ElfFile) : Elf64Ehdr where
  eIdent := (List.range 16).map fun i => file.byte (BitVec.ofNat 64 i)
  eType := file.half 16
  eMachine := file.half 18
  eEntry := file.xword 24
  ePhoff := file.xword 32
  ePhnum := file.half 56

/-- `Elf64_Phdr`, as far as the loader looks at it. -/
structure Elf64Phdr where
  pType : BitVec 32
  pOffset : BitVec 64
  pVaddr : Addr
  pFilesz : BitVec 64
  pMemsz : BitVec 64
  pAlign : BitVec 64
  deriving DecidableEq, Repr

/-- `sizeof(Elf64_Phdr)` -/
def phdrSize : Nat := 56

def readPhdr (file : ElfFile) (index : Addr) : Elf64Phdr where
  pType := file.word index
  pOffset := file.xword (index + 8)
  pVaddr := file.xword (index + 16)
  pFilesz := file.xword (index + 32)
  pMemsz := file.xword (index + 40)
  pAlign := file.xword (index + 48)

/-- The table `phdrs`, as it is copied from `e_phoff`. -/
def readPhdrs (file : ElfFile) : List Elf64Phdr :=
  let header := readHeader file
  (List.range header.ePhnum.toNat).map fun i => readPhdr file (header.ePhoff + BitVec.ofNat 64 (phdrSize * i))

/-- `elfCheckFile`: the first byte of the magic is only warned about. -/
def elfCheckFile (header : Elf64Ehdr) : Bool :=
  header.eIdent[1]? == some 0x45 && header.eIdent[2]? == some 0x4c && header.eIdent[3]? == some 0x46

/-- `elfCheckSupported`: 64 bit, little endian, x86-64, current version,
relocatable or executable. -/
def elfCheckSupported (header : Elf64Ehdr) : Bool :=
  header.eIdent[4]? == some 2 && header.eIdent[5]? == some 1 && header.eMachine == 0x3e &&
    header.eIdent[6]? == some 1 && (header.eType == 1 || header.eType == 2)

/-! ## Segments -/

/-- `PT_LOAD` -/
def ptLoad : BitVec 32 := 1
/-- `PT_TLS` -/
def ptTls : BitVec 32 := 7

/-- `masterTLS`, with the bytes at its location. -/
structure MasterTLS where
  image : Nat → Byte
  actualSize : BitVec 64
  totalSize : BitVec 64
  alignment : BitVec 64

structure LoadState (σ : Type) where
  proc : Process σ
  masterTLS : MasterTLS

section Loading
variable {σ : Type} (alloc : FrameAllocator σ)

/-- A store to the space of a process. -/
def store (proc : Process σ) (base : Addr) (count : Nat) (bytes : Nat → Byte) : Option (Process σ) :=
  (storeBytes proc.physical.mem proc.pml4Physical base count bytes).map fun mem =>
    { proc with physical := { proc.physical with mem } }

def wordBytes (word : BitVec 64) (i : Nat) : Byte := word.extractLsb' (8 * i) 8

/-- The bytes of a segment in the file. -/
def segmentBytes (file : ElfFile) (phdr : Elf64Phdr) (i : Nat) : Byte :=
  file.byte (phdr.pOffset + BitVec.ofNat 64 i)

/-- One turn of the loop over the program headers. The result of the reservation
is not looked at; a copy that faults has read the byte it could not store. -/
def loadSegment (file : ElfFile) (state : LoadState σ) (phdr : Elf64Phdr) : List Copy × Option (LoadState σ) :=
  if phdr.pType = ptLoad then
    match UserspaceAllocator.allocateRange alloc state.proc phdr.pVaddr phdr.pMemsz with
    | (none, _) => ([], none)
    | (some _, proc) =>
      let reach := storeReach proc.physical.mem proc.pml4Physical phdr.pVaddr phdr.pFilesz.toNat
        (segmentBytes file phdr)
      ([⟨phdr.pOffset, min phdr.pFilesz.toNat (reach + 1)⟩],
        (store proc phdr.pVaddr phdr.pFilesz.toNat (segmentBytes file phdr)).map fun proc =>
          { state with proc })
  else if phdr.pType = ptTls then
    ([⟨phdr.pOffset, phdr.pFilesz.toNat⟩],
      some { state with masterTLS := ⟨segmentBytes file phdr, phdr.pFilesz, phdr.pMemsz, phdr.pAlign⟩ })
  else ([], some state)

def loadSegments (file : ElfFile) : LoadState σ → List Elf64Phdr → List Copy × Option (LoadState σ)
  | state, [] => ([], some state)
  | state, phdr :: rest =>
    match loadSegment alloc file state phdr with
    | (copies, none) => (copies, none)
    | (copies, some next) =>
      let (more, last) := loadSegments file next rest
      (copies ++ more, last)

/-! ## The first thread -/

/-- `USERSPACE_STACK_SIZE` -/
def userspaceStackSize : BitVec 64 := 10 * pageSize
/-- `INTERRUPT_STACK_SIZE` -/
def interruptStackSize : BitVec 64 := 2 * pageSize
/-- `sizeof(UserThread)` -/
def userThreadSize : BitVec 64 := 8
/-- `sizeof(k_thread_state)` -/
def threadStateSize : BitVec 64 := 208

/-- `ALIGN_UP` -/
def alignUp (val align : BitVec 64) : BitVec 64 := if val % align = 0 then val else val - val % align + align

/-- The memory of a thread: its stacks, its thread-local storage, and the page of
its arguments. -/
structure ThreadMemory where
  stackStart : Addr
  stackEnd : Addr
  interruptStart : Addr
  interruptEnd : Addr
  tlsStart : Addr
  tlsEnd : Addr
  userThread : Addr
  argv : Addr
  context : Addr
  deriving DecidableEq, Repr

/-- The arguments: one name, with its end. -/
def argvName : List Byte := [0x68, 0x65, 0x79, 0x6f, 0]

/-- `taskingInitializeThreadMemory` of a user thread. -/
def taskingInitializeThreadMemory (kernelRanges : List AddressRange) (state : LoadState σ) :
    Option (ThreadMemory × Process σ) := do
  let (stackStart, proc) := allocateStack alloc state.proc userspaceStackSize
  let stackEnd := stackStart + userspaceStackSize
  let (interruptStart, _, proc) := allocateInterruptStack alloc kernelRanges proc interruptStackSize
  let interruptEnd := interruptStart + interruptStackSize
  let alignment := state.masterTLS.alignment
  if alignment = 0 then none
  else
    let totalSizeAligned := alignUp state.masterTLS.totalSize alignment + userThreadSize
    let (tlsStart, proc) := allocateStack alloc proc totalSizeAligned
    let proc ← store proc tlsStart totalSizeAligned.toNat fun _ => 0
    let proc ← store proc tlsStart state.masterTLS.actualSize.toNat state.masterTLS.image
    let userThread := tlsStart + alignUp state.masterTLS.totalSize alignment
    let proc ← store proc userThread 8 (wordBytes userThread)
    let (argv, proc) := allocateStack alloc proc 4096
    let proc ← store proc (stackEnd - 8) 1 fun _ => 0
    let proc ← store proc argv argvName.length fun i => argvName.getD i 0
    let proc ← store proc (stackEnd - 16) 8 (wordBytes argv)
    let proc ← store proc (stackEnd - 24) 4 (wordBytes 1)
    let context := stackEnd - 24 - threadStateSize
    let proc ← store proc (context + 144) 8 (wordBytes stackEnd)
    let proc ← store proc (context + 192) 8 (wordBytes (context + threadStateSize))
    some (⟨stackStart, stackEnd, interruptStart, interruptEnd, tlsStart, tlsStart + totalSizeAligned, userThread, argv,
      context⟩, proc)

/-- A register of the thread's context: its place and its value. -/
def contextRegisters (entryPoint : Addr) : List (Addr × BitVec 64) :=
  [(168, entryPoint), (176, 0x1b), (200, 0x23), (8, 0x23), (16, 0x23), (0, 0x23)]

/-- The flags as they stand, with interrupts on. -/
def raisedFlags (proc : Process σ) (rflags : Addr) (i : Nat) : Byte :=
  let old := (resolve proc.physical.mem proc.pml4Physical (rflags + BitVec.ofNat 64 i)).map
    proc.physical.mem
  old.getD 0 ||| wordBytes 0x202 i

/-- `taskingCreateThread` of a user thread, as far as the space of the process goes. -/
def taskingCreateThread (kernelRanges : List AddressRange) (state : LoadState σ) (entryPoint : Addr) :
    Option (ThreadMemory × Process σ) := do
  let (thread, proc) ← taskingInitializeThreadMemory alloc kernelRanges state
  let proc ← (contextRegisters entryPoint).foldlM
    (fun proc (offset, value) => store proc (thread.context + offset) 8 (wordBytes value)) proc
  let proc ← store proc (thread.context + 184) 8 (raisedFlags proc (thread.context + 184))
  some (thread, proc)

/-! ## The loader -/

/-- What a load ends with: no status when the kernel panics, the bytes read from
the buffer so far, and the thread and process if there are any. -/
structure Outcome (σ : Type) where
  status : Option LoadStatus
  copies : List Copy
  created : Option (ThreadMemory × Process σ)

/-- `elfLoad`, while `current` is the space. -/
def elfLoad (st : Physical σ) (current : Addr) (kernelRanges : List AddressRange) (file : ElfFile) : Outcome σ :=
  if !file.opened then ⟨some .failedToOpen, [], none⟩
  else if !file.readOk || file.readBytes.toNat != file.fileSize then ⟨some .failedToRead, [], none⟩
  else
    let header := readHeader file
    let headerCopy : Copy := ⟨0, ehdrSize⟩
    if !elfCheckFile header then ⟨some .invalidHeader, [headerCopy], none⟩
    else if !elfCheckSupported header then ⟨some .unsupportedElf, [headerCopy], none⟩
    else
      let tableCopy : Copy := ⟨header.ePhoff, phdrSize * header.ePhnum.toNat⟩
      let start : LoadState σ := ⟨constructProcess alloc st current, ⟨fun _ => 0, 0, 0, 0⟩⟩
      match loadSegments alloc file start (readPhdrs file) with
      | (copies, none) => ⟨none, headerCopy :: tableCopy :: copies, none⟩
      | (copies, some state) =>
        match taskingCreateThread alloc kernelRanges state header.eEntry with
        | none => ⟨none, headerCopy :: tableCopy :: copies, none⟩
        | some created => ⟨some .success, headerCopy :: tableCopy :: copies, some created⟩

end Loading

end LunaOS.ElfLoader
