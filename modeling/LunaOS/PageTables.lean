import LunaOS.ByteMemory
import LunaOS.PageArithmetic

/-! The four-level page tables (`memory/paging.cpp`). Tables live in physical
memory and are read and written through the direct map; new ones come from a
physical frame allocator, which is a parameter here. -/
namespace LunaOS.PageTables
open ByteMemory

/-- `HHDM`, where the direct map of physical memory begins. -/
def hhdm : Addr := 0xffff800000000000

/-- `PAGING_APPLY_DIRECTMAP` -/
def applyDirectmap (phys : Addr) : Addr := phys + hhdm
/-- `PAGING_REMOVE_DIRECTMAP` -/
def removeDirectmap (virtual : Addr) : Addr := virtual - hhdm

/-- `ADDRESS_EXCLUDE` -/
def addressExclude (entry : BitVec 64) : BitVec 64 := entry &&& 0xffffffffffff000
/-- `OFFSET_EXCLUDE` -/
def offsetExclude (address : Addr) : BitVec 64 := address &&& 0xfff

/-- `PT_INDEXER` -/
def ptIndexer (address : Addr) : BitVec 64 := (address >>> 12) &&& 0x1ff
/-- `PD_INDEXER` -/
def pdIndexer (address : Addr) : BitVec 64 := (address >>> 21) &&& 0x1ff
/-- `PDPT_INDEXER` -/
def pdptIndexer (address : Addr) : BitVec 64 := (address >>> 30) &&& 0x1ff
/-- `PML4_INDEXER` -/
def pml4Indexer (address : Addr) : BitVec 64 := (address >>> 39) &&& 0x1ff

/-- `PAGETABLE_PRESENT` and `PAGE_PRESENT` -/
def pagetablePresent : BitVec 64 := 1
/-- `PAGETABLE_PAGE_SIZE` -/
def pagetablePageSize : BitVec 64 := 128
/-- `PAGETABLE_SIZE` -/
def pagetableSize : Nat := 512

/-- `CHECK_FLAG` -/
def checkFlag (entry flag : BitVec 64) : Bool := entry &&& flag != 0
/-- `UNSET_FLAG` -/
def unsetFlag (entry flag : BitVec 64) : BitVec 64 := entry &&& ~~~flag

/-- `k_paging_flags` -/
structure PagingFlags where
  pml4Flags : BitVec 64
  pdptFlags : BitVec 64
  pdFlags : BitVec 64
  ptFlags : BitVec 64

/-- `USERSPACE_DEFAULT_PAGING_FLAGS`: present, writable, user. -/
def userspaceDefaultPagingFlags : PagingFlags := ⟨7, 7, 7, 7⟩

/-- `PAGING_DEFAULT_FLAGS`: present, writable. -/
def pagingDefaultFlags : PagingFlags := ⟨3, 3, 3, 3⟩

/-- The physical frame allocator, by its two operations. -/
structure FrameAllocator (σ : Type) where
  allocatePage : σ → Addr × σ
  freePage : σ → Addr → σ

/-- Physical memory and the allocator of its frames. -/
structure Physical (σ : Type) where
  mem : Memory
  frames : σ

/-- `pagetable[index]`, through the direct map. -/
def readEntry (mem : Memory) (pagetable : Addr) (index : BitVec 64) : BitVec 64 :=
  load64 mem (removeDirectmap (pagetable + 8 * index))

/-- `pagetable[index] = entry` -/
def writeEntry (mem : Memory) (pagetable : Addr) (index entry : BitVec 64) : Memory :=
  store64 mem (removeDirectmap (pagetable + 8 * index)) entry

section Paging
variable {σ : Type} (alloc : FrameAllocator σ)

/-- One level of `pagingMapPageInSpace`: the table an entry points to, created
when the entry is not present. Whatever the entry held stays under the bits of
the new table; an override rewrites the low flags of a present entry. -/
def enterTable (st : Physical σ) (pagetable : Addr) (index flags : BitVec 64) (override : Bool) : Addr × Physical σ :=
  let entry := readEntry st.mem pagetable index
  if checkFlag entry pagetablePresent then
    let child := applyDirectmap (addressExclude entry)
    if override then
      let entry := (entry &&& (~~~(0 : BitVec 64)) <<< 12) ||| flags
      (child, { st with mem := writeEntry st.mem pagetable index entry })
    else (child, st)
  else
    let entry := entry ||| flags
    let (frame, frames) := alloc.allocatePage st.frames
    let child := applyDirectmap frame
    let mem := fill st.mem (removeDirectmap child) 0 4096
    let entry := entry ||| removeDirectmap child
    (child, ⟨writeEntry mem pagetable index entry, frames⟩)

/-- `pagingMapPageInSpace` -/
def pagingMapPageInSpace (st : Physical σ) (virt phys pml4Addr : Addr) (flags : PagingFlags)
    (override : Bool) : Physical σ :=
  let pml4 := applyDirectmap pml4Addr
  let (pdpt, st) := enterTable alloc st pml4 (pml4Indexer virt) flags.pml4Flags override
  let (pd, st) := enterTable alloc st pdpt (pdptIndexer virt) flags.pdptFlags override
  let (pt, st) := enterTable alloc st pd (pdIndexer virt) flags.pdFlags override
  let pte := readEntry st.mem pt (ptIndexer virt)
  if !checkFlag pte pagetablePresent || override then
    { st with
      mem := writeEntry st.mem pt (ptIndexer virt) (0 ||| flags.ptFlags ||| phys) }
  else st

/-- The loop of `pagingIsPagetableEmpty` from the value its counter happens to
have: the `int` is never initialised in the source. -/
def isPagetableEmptyFrom (counter : BitVec 32) (mem : Memory) (pagetable : Addr) : Bool :=
  (List.range (pagetableSize - counter.toInt).toNat).all fun turn =>
    !checkFlag (readEntry mem pagetable (BitVec.ofInt 64 (counter.toInt + turn))) pagetablePresent

/-- `pagingIsPagetableEmpty`, read as a scan of the whole table: the counter of
its loop is taken to start at 0. -/
def pagingIsPagetableEmpty (mem : Memory) (pagetable : Addr) : Bool :=
  (List.range pagetableSize).all fun index =>
    !checkFlag (readEntry mem pagetable (BitVec.ofNat 64 index)) pagetablePresent

/-- The release of a table found empty: its frame is freed and the entry that
points to it loses its present bit, nothing else. -/
def dropTable (st : Physical σ) (pagetable : Addr) (index entry : BitVec 64) : Physical σ where
  mem := writeEntry st.mem pagetable index (unsetFlag entry pagetablePresent)
  frames := alloc.freePage st.frames (addressExclude entry)

instance scannedLevels : @NeZero Nat Zero.ofOfNat0 3 := ⟨by decide⟩

/-- `pagingUnmapPageInSpace` over its three tests for an empty table, with the
frame the page was mapped to. -/
def unmapPageScanning (isEmpty : Fin 3 → Memory → Addr → Bool) (st : Physical σ)
    (virt pml4Addr : Addr) : Addr × Physical σ :=
  let mem := st.mem
  let pml4 := applyDirectmap pml4Addr
  let pml4e := readEntry mem pml4 (pml4Indexer virt)
  if !checkFlag pml4e pagetablePresent then (0, st)
  else
    let pdpt := applyDirectmap (addressExclude pml4e)
    let pdpte := readEntry mem pdpt (pdptIndexer virt)
    if !checkFlag pdpte pagetablePresent then (0, st)
    else
      let pd := applyDirectmap (addressExclude pdpte)
      let pde := readEntry mem pd (pdIndexer virt)
      if !checkFlag pde pagetablePresent then (0, st)
      else
        let pt := applyDirectmap (addressExclude pde)
        let pte := readEntry mem pt (ptIndexer virt)
        if !checkFlag pte pagetablePresent then (0, st)
        else
          let mappedPage := addressExclude pte
          let st := { st with
            mem := writeEntry mem pt (ptIndexer virt) (unsetFlag pte pagetablePresent) }
          if !isEmpty 0 st.mem pt then (mappedPage, st)
          else
            let st := dropTable alloc st pd (pdIndexer virt) pde
            if !isEmpty 1 st.mem pd then (mappedPage, st)
            else
              let st := dropTable alloc st pdpt (pdptIndexer virt) pdpte
              if !isEmpty 2 st.mem pdpt then (mappedPage, st)
              else (mappedPage, dropTable alloc st pml4 (pml4Indexer virt) pml4e)

/-- `pagingUnmapPageInSpace` -/
def pagingUnmapPageInSpace (st : Physical σ) (virt pml4Addr : Addr) : Addr × Physical σ :=
  unmapPageScanning alloc (fun _ => pagingIsPagetableEmpty) st virt pml4Addr

end Paging

/-- `pagingVirtualToPhysical`, in the space of `pml4Addr`. -/
def pagingVirtualToPhysical (mem : Memory) (pml4Addr virt : Addr) : Addr :=
  let pml4 := applyDirectmap pml4Addr
  let pml4e := readEntry mem pml4 (pml4Indexer virt)
  if !checkFlag pml4e pagetablePresent then 0
  else
    let pdpt := applyDirectmap (addressExclude pml4e)
    let pdpte := readEntry mem pdpt (pdptIndexer virt)
    if !checkFlag pdpte pagetablePresent then 0
    else if checkFlag pdpte pagetablePageSize then addressExclude pdpte
    else
      let pd := applyDirectmap (addressExclude pdpte)
      let pde := readEntry mem pd (pdIndexer virt)
      if !checkFlag pde pagetablePresent then 0
      else if checkFlag pde pagetablePageSize then addressExclude pde
      else
        let pt := applyDirectmap (addressExclude pde)
        let pte := readEntry mem pt (ptIndexer virt)
        if !checkFlag pte pagetablePresent then 0
        else addressExclude pte + offsetExclude virt

/-- `pagingCopyKernelMappings`, from the space of `current`. -/
def pagingCopyKernelMappings (mem : Memory) (current dest : Addr) : Memory :=
  (List.range 256).foldl (fun mem i =>
    let index := BitVec.ofNat 64 (256 + i)
    writeEntry mem (applyDirectmap dest) index (readEntry mem (applyDirectmap current) index)) mem

end LunaOS.PageTables
