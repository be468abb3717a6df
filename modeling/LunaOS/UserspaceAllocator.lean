import LunaOS.BoundedLoop
import LunaOS.PageTables
import LunaOS.RangeAllocator

/-! The memory of a process (`memory/userspace_allocator.cpp`) and the system
calls that ask for it (`vmMap` and `vmUnmap` of `syscalls/syscalls_calls.cpp`).
Stores to user addresses go through the tables of the process; one that finds no
page is a fault, which ends in a kernel panic. -/
namespace LunaOS.UserspaceAllocator
open ByteMemory BoundedLoop PageArithmetic PageTables RangeAllocator

/-- `USERSPACE_MEMORY_START` -/
def userspaceMemoryStart : Addr := 0
/-- `USERSPACE_STACK_MAX` -/
def userspaceStackMax : Addr := 0xffff400000000000

/-! ## Stores through the tables -/

/-- Addresses the processor accepts: bits 47 to 63 are all equal. -/
def canonical (virt : Addr) : Bool := virt < 0x800000000000 || 0xffff800000000000 ≤ virt

/-- The translation of the processor in the space of `pml4Addr`. -/
def resolve (mem : Memory) (pml4Addr virt : Addr) : Option Addr :=
  if !canonical virt then none
  else
    let pml4e := readEntry mem (applyDirectmap pml4Addr) (pml4Indexer virt)
    if !checkFlag pml4e pagetablePresent then none
    else
      let pdpte := readEntry mem (applyDirectmap (addressExclude pml4e)) (pdptIndexer virt)
      if !checkFlag pdpte pagetablePresent then none
      else if checkFlag pdpte pagetablePageSize then some (addressExclude pdpte + (virt &&& 0x3fffffff))
      else
        let pde := readEntry mem (applyDirectmap (addressExclude pdpte)) (pdIndexer virt)
        if !checkFlag pde pagetablePresent then none
        else if checkFlag pde pagetablePageSize then some (addressExclude pde + (virt &&& 0x1fffff))
        else
          let pte := readEntry mem (applyDirectmap (addressExclude pde)) (ptIndexer virt)
          if !checkFlag pte pagetablePresent then none
          else some (addressExclude pte + offsetExclude virt)

/-- One page of a store; it ends with the bytes stored when all are or a page is missing. -/
def storeTurn (pml4Addr base : Addr) (count : Nat) (bytes : Nat → Byte) :
    Memory × Nat → Turn (Memory × Nat) (Memory × Nat)
  | (mem, done) =>
    if count ≤ done then .leave (mem, done)
    else
      let virt := base + BitVec.ofNat 64 done
      match resolve mem pml4Addr virt with
      | none => .leave (mem, done)
      | some phys =>
        let room := min (count - done) (4096 - virt.toNat % 4096)
        .again (write mem phys room fun i => bytes (done + i), done + room)

/-- `memset` and `memcpy` to user addresses, page by page; `none` is a fault. -/
def storeBytes (mem : Memory) (pml4Addr base : Addr) (count : Nat) (bytes : Nat → Byte) : Option Memory :=
  match iterate (storeTurn pml4Addr base count bytes) (count + 1) (mem, 0) with
  | some (mem, done) => if count ≤ done then some mem else none
  | none => none

/-- How many bytes are stored before a fault. -/
def storeReach (mem : Memory) (pml4Addr base : Addr) (count : Nat) (bytes : Nat → Byte) : Nat :=
  match iterate (storeTurn pml4Addr base count bytes) (count + 1) (mem, 0) with
  | some (_, done) => done
  | none => 0

/-! ## The process -/

/-- `k_userspace_allocator`, with the machine's memory it works on. -/
structure Process (σ : Type) where
  memoryAllocator : List AddressRange
  pml4Physical : Addr
  physical : Physical σ

section Process
variable {σ : Type} (alloc : FrameAllocator σ)

/-- `k_userspace_allocator::k_userspace_allocator`, while `current` is the space. -/
def constructProcess (st : Physical σ) (current : Addr) : Process σ :=
  let memoryAllocator := addRange [] (userspaceMemoryStart + 0x1000) userspaceStackMax
  let (pml4Physical, frames) := alloc.allocatePage st.frames
  let mem := fill st.mem (removeDirectmap (applyDirectmap pml4Physical)) 0 4096
  ⟨memoryAllocator, pml4Physical, ⟨pagingCopyKernelMappings mem current pml4Physical, frames⟩⟩

/-- A page drawn and mapped, as the loops over the pages of a range do. -/
def mapPage (pml4Physical : Addr) (flags : PagingFlags) (st : Physical σ) (virt : Addr) : Physical σ :=
  let (phys, frames) := alloc.allocatePage st.frames
  pagingMapPageInSpace alloc { st with frames := frames } virt phys pml4Physical flags false

def mapPages (pml4Physical : Addr) (flags : PagingFlags) (st : Physical σ) (virts : List Addr) :
    Physical σ := virts.foldl (mapPage alloc pml4Physical flags) st

/-- The addresses such a loop maps. -/
def pagesFrom (start : Addr) (pages : BitVec 64) : List Addr :=
  (List.range pages.toNat).map fun page => start + BitVec.ofNat 64 page * pageSize

/-- `k_userspace_allocator::allocateStack` of a user stack: the result is eight
bytes below the range. -/
def allocateStack (proc : Process σ) (stackSize : BitVec 64) : Addr × Process σ :=
  let pages := alignPageUp stackSize / pageSize
  let (stackPtr, memoryAllocator) := RangeAllocator.allocateRange proc.memoryAllocator pages
  if stackPtr = 0 then (0, { proc with memoryAllocator })
  else
    (stackPtr - 8, { proc with
      memoryAllocator
      physical := mapPages alloc proc.pml4Physical userspaceDefaultPagingFlags proc.physical
        (pagesFrom stackPtr pages) })

/-- The page count of `k_userspace_allocator::allocateRange`. -/
def rangePages (start size : BitVec 64) : BitVec 64 :=
  let startAligned := alignPageDown start
  let endAligned := alignPageUp (start + size)
  (endAligned - startAligned) / pageSize

/-- `k_userspace_allocator::allocateRange`: pages are mapped from `start` itself
and cleared from its page on; `none` is a fault in the clearing. -/
def allocateRange (proc : Process σ) (start size : BitVec 64) : Option Bool × Process σ :=
  let startAligned := alignPageDown start
  let pages := rangePages start size
  let (found, memoryAllocator) := useRange proc.memoryAllocator startAligned pages
  if !found then (some false, { proc with memoryAllocator })
  else
    let st := mapPages alloc proc.pml4Physical userspaceDefaultPagingFlags proc.physical
      (pagesFrom start pages)
    match storeBytes st.mem proc.pml4Physical startAligned (pages * pageSize).toNat fun _ => 0 with
    | none => (none, { proc with memoryAllocator, physical := st })
    | some mem => (some true, { proc with memoryAllocator, physical := { st with mem } })

/-- `k_userspace_allocator::allocateInterruptStack`, in the ranges of the kernel. -/
def allocateInterruptStack (kernelRanges : List AddressRange) (proc : Process σ) (stackSize : BitVec 64) :
    Addr × List AddressRange × Process σ :=
  let pages := alignPageUp stackSize / pageSize
  let (stackPtr, kernelRanges) := RangeAllocator.allocateRange kernelRanges pages
  if stackPtr = 0 then (0, kernelRanges, proc)
  else
    (stackPtr - 8, kernelRanges, { proc with
      physical := mapPages alloc proc.pml4Physical pagingDefaultFlags proc.physical
        (pagesFrom stackPtr pages) })

/-- `k_userspace_allocator::freeStack` -/
def freeStack (proc : Process σ) (stackPtr : Addr) : Process σ :=
  { proc with memoryAllocator := freeRange proc.memoryAllocator stackPtr }

/-! ## System calls -/

/-- What a call leaves in its `VMMapData`: fields it does not set are `none`. -/
structure VMMapReply where
  allocatedRange : Option Addr
  result : Bool
  errno : Option Nat
  deriving DecidableEq, Repr

/-- `EINVAL` -/
def einval : Nat := 1026

/-- The second half of `vmMap`: anywhere. -/
def vmMapAnywhere (proc : Process σ) (size : BitVec 64) : VMMapReply × Process σ :=
  let (allocatedRange, proc) := allocateStack alloc proc size
  if allocatedRange = 0 then (⟨some allocatedRange, false, none⟩, proc)
  else (⟨some allocatedRange, true, none⟩, proc)

/-- `Syscall::Calls::vmMap`; no reply when the kernel panics. -/
def vmMap (proc : Process σ) (hint size : BitVec 64) : Option VMMapReply × Process σ :=
  if size = 0 then (some ⟨none, false, some einval⟩, proc)
  else if hint ≠ 0 then
    match allocateRange alloc proc hint size with
    | (none, proc) => (none, proc)
    | (some true, proc) => (some ⟨some hint, true, none⟩, proc)
    | (some false, proc) =>
      let (reply, proc) := vmMapAnywhere alloc proc size
      (some reply, proc)
  else
    let (reply, proc) := vmMapAnywhere alloc proc size
    (some reply, proc)

/-- `Syscall::Calls::vmUnmap`: the result is always true. -/
def vmUnmap (proc : Process σ) (pointer : Addr) : Bool × Process σ := (true, freeStack proc pointer)

end Process

/-! ## What the requests do -/

section Requests
variable {σ : Type}

/-- The range a request for a stack is given. -/
def rangeGiven (ranges : List AddressRange) (size : BitVec 64) : Addr :=
  (RangeAllocator.allocateRange ranges (alignPageUp size / pageSize)).1

/-- The ranges after it. -/
def rangesLeft (ranges : List AddressRange) (size : BitVec 64) : List AddressRange :=
  (RangeAllocator.allocateRange ranges (alignPageUp size / pageSize)).2

/-- The pointer it returns. -/
def stackPointer (ranges : List AddressRange) (size : BitVec 64) : Addr :=
  if rangeGiven ranges size = 0 then 0 else rangeGiven ranges size - 8

/-- The pages it maps. -/
def pagesIn (ranges : List AddressRange) (size : BitVec 64) : List Addr :=
  if rangeGiven ranges size = 0 then [] else pagesFrom (rangeGiven ranges size) (alignPageUp size / pageSize)

/-- The pages `allocateStack` maps. -/
abbrev stackPages (proc : Process σ) (size : BitVec 64) : List Addr := pagesIn proc.memoryAllocator size

theorem allocateStack_eq (alloc : FrameAllocator σ) (proc : Process σ) (size : BitVec 64) :
    allocateStack alloc proc size = (stackPointer proc.memoryAllocator size,
      ⟨rangesLeft proc.memoryAllocator size, proc.pml4Physical, mapPages alloc proc.pml4Physical
        userspaceDefaultPagingFlags proc.physical (stackPages proc size)⟩) := by
  simp only [allocateStack, stackPointer, pagesIn]
  split
  case isTrue null =>
    have null : rangeGiven _ size = 0 := null
    rw [if_pos null, if_pos null]
    rfl
  case isFalse granted =>
    have granted : rangeGiven _ size ≠ 0 := granted
    rw [if_neg granted, if_neg granted]
    rfl

theorem allocateInterruptStack_eq (alloc : FrameAllocator σ) (kernelRanges : List AddressRange)
    (proc : Process σ) (size : BitVec 64) : allocateInterruptStack alloc kernelRanges proc size =
      (stackPointer kernelRanges size, rangesLeft kernelRanges size, { proc with
        physical := mapPages alloc proc.pml4Physical pagingDefaultFlags proc.physical
          (pagesIn kernelRanges size) }) := by
  simp only [allocateInterruptStack, stackPointer, pagesIn]
  split
  case isTrue null =>
    have null : rangeGiven _ size = 0 := null
    rw [if_pos null, if_pos null]
    rfl
  case isFalse granted =>
    have granted : rangeGiven _ size ≠ 0 := granted
    rw [if_neg granted, if_neg granted]
    rfl

/-- What a request at a fixed place does. -/
theorem rangeAt_cases (alloc : FrameAllocator σ) (proc : Process σ) (start size : BitVec 64) :
    let taken := useRange proc.memoryAllocator (alignPageDown start) (rangePages start size)
    let mapped := mapPages alloc proc.pml4Physical userspaceDefaultPagingFlags proc.physical
      (pagesFrom start (rangePages start size))
    (taken.1 = false ∧ UserspaceAllocator.allocateRange alloc proc start size = (some false, proc)) ∨
      taken.1 = true ∧ ((UserspaceAllocator.allocateRange alloc proc start size).1 = none ∨
        ∃ mem, storeBytes mapped.mem proc.pml4Physical (alignPageDown start)
            (rangePages start size * pageSize).toNat (fun _ => 0) = some mem ∧
          UserspaceAllocator.allocateRange alloc proc start size =
            (some true, ⟨taken.2, proc.pml4Physical, { mapped with mem }⟩)) := by
  intro taken mapped
  cases found : taken.1 with
  | false =>
    refine .inl ⟨rfl, ?_⟩
    have same := useRange_missed found
    simp only [UserspaceAllocator.allocateRange, taken] at found ⊢
    rw [found, same]
    rfl
  | true =>
    refine .inr ⟨rfl, ?_⟩
    simp only [UserspaceAllocator.allocateRange, taken, mapped] at found ⊢
    rw [found]
    simp only [Bool.not_true, Bool.false_eq_true, if_false]
    cases storeBytes _ proc.pml4Physical (alignPageDown start) (rangePages start size * pageSize).toNat
        (fun _ => 0) with
    | none => exact .inl rfl
    | some mem => exact .inr ⟨mem, rfl, rfl⟩

end Requests

end LunaOS.UserspaceAllocator
