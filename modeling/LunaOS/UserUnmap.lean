import LunaOS.KernelHalf
import LunaOS.RangePartition

/-! `vmMap` anywhere and `vmUnmap` of what it returned. The pointer lies eight
bytes below the range, every range begins at a page, and `freeRange` looks for
the very base: nothing is found and nothing is undone. -/
namespace LunaOS.UserUnmap
open ByteMemory PageArithmetic PageTables FrameExclusivity PageTranslation
open RangeAllocator UserspaceAllocator KernelHalf
open BitmapAllocator (physicalAllocator)

/-! ## Ranges begin at pages -/

def PageBased (ranges : List AddressRange) : Prop := ∀ range ∈ ranges, range.base.toNat % 4096 = 0

theorem pageBased_append {front back : List AddressRange} :
    PageBased (front ++ back) ↔ PageBased front ∧ PageBased back := List.forall_mem_append

theorem pageBased_cons {range : AddressRange} {rest : List AddressRange} :
    PageBased (range :: rest) ↔ range.base.toNat % 4096 = 0 ∧ PageBased rest := List.forall_mem_cons

theorem page_plus {base : BitVec 64} (page : base.toNat % 4096 = 0) (pages : BitVec 64) :
    (base + pages * pageSize).toNat % 4096 = 0 := by
  rw [BitVec.toNat_add, BitVec.toNat_mul, pageSize_toNat]
  omega

theorem mergeFrom_based {range : AddressRange} (page : range.base.toNat % 4096 = 0) (based : PageBased rest) :
    PageBased (mergeFrom range rest) := by
  induction rest generalizing range with
  | nil => exact pageBased_cons.mpr ⟨page, based⟩
  | cons following rest ih =>
    obtain ⟨next, based⟩ := pageBased_cons.mp based
    rw [mergeFrom]
    split
    · exact ih page based
    · exact pageBased_cons.mpr ⟨page, ih next based⟩

theorem mergeAll_based (based : PageBased ranges) : PageBased (mergeAll ranges) := by
  cases ranges with
  | nil => exact based
  | cons range rest =>
    obtain ⟨page, based⟩ := pageBased_cons.mp based
    exact mergeFrom_based page based

theorem take_based {range : AddressRange} (page : range.base.toNat % 4096 = 0) (pages : BitVec 64) :
    PageBased (take range pages) := by
  refine pageBased_cons.mpr ⟨page, ?_⟩
  split
  · exact pageBased_cons.mpr ⟨page_plus page pages, by simp [PageBased]⟩
  · simp [PageBased]

theorem occupy_based {range : AddressRange} (page : range.base.toNat % 4096 = 0) (start size : BitVec 64) :
    PageBased (occupy range start size) := by
  have down : (alignPageDown start).toNat % 4096 = 0 := by
    rw [alignPageDown_toNat]
    omega
  have empty : PageBased [] := by simp [PageBased]
  simp only [occupy]
  split
  · exact pageBased_cons.mpr ⟨page, pageBased_cons.mpr ⟨page_plus page size, empty⟩⟩
  · exact pageBased_cons.mpr ⟨page, pageBased_cons.mpr ⟨down, pageBased_cons.mpr ⟨page_plus down size, empty⟩⟩⟩

/-- Replacing one range by page-based ones. -/
theorem replace_based (based : PageBased (pre ++ [range] ++ post))
    (pieces : range.base.toNat % 4096 = 0 → PageBased news) : PageBased (pre ++ news ++ post) := by
  simp only [pageBased_append, pageBased_cons] at based ⊢
  exact ⟨⟨based.1.1, pieces based.1.2.1⟩, based.2⟩

theorem serve_based {alloc : RangePartition.Allocator} (based : PageBased alloc.ranges)
    (request : RangePartition.Request) : PageBased (RangePartition.serve alloc request).ranges := by
  cases request with
  | allocateRange pages =>
    simp only [RangePartition.serve]
    rcases allocateRange_cases alloc.ranges pages with ⟨same, _⟩ | ⟨pre, range, post, shape, _, _, taken⟩
    · rw [same]
      exact based
    · rw [taken]
      exact replace_based (shape ▸ based) fun page => take_based page pages
  | useRange start size =>
    simp only [RangePartition.serve]
    rcases useRange_cases alloc.ranges start size with ⟨same, _⟩ | ⟨pre, range, post, shape, _, used⟩
    · rw [same]
      exact based
    · rw [used]
      exact replace_based (shape ▸ based) fun page => occupy_based page start size
  | freeRange base =>
    simp only [RangePartition.serve, freeRange]
    rcases releaseRange_cases alloc.ranges base with none | ⟨pre, range, post, shape, _, _, released⟩
    · rw [none]
      exact based
    · rw [released]
      exact mergeAll_based (replace_based (shape ▸ based) fun page => by simpa [PageBased] using page)

/-- The ranges of a process, after any requests to its range allocator. -/
def processRanges (requests : List RangePartition.Request) : List AddressRange :=
  (requests.foldl RangePartition.serve
    (RangePartition.boot (userspaceMemoryStart + 0x1000) userspaceStackMax)).ranges

theorem processRanges_based (requests : List RangePartition.Request) : PageBased (processRanges requests) := by
  have run : ∀ alloc : RangePartition.Allocator, PageBased alloc.ranges →
      PageBased (requests.foldl RangePartition.serve alloc).ranges := by
    induction requests with
    | nil => exact fun _ based => based
    | cons request rest ih => exact fun alloc based => ih _ (serve_based based request)
  refine run _ ?_
  rw [RangePartition.boot_ranges]
  exact pageBased_cons.mpr ⟨by decide, by simp [PageBased]⟩

/-- Between two pages no range begins. -/
theorem freeRange_inside (based : PageBased ranges) (inside : pointer.toNat % 4096 ≠ 0) :
    freeRange ranges pointer = ranges := by
  rw [freeRange]
  rcases releaseRange_cases ranges pointer with none | ⟨pre, range, post, rfl, _, rfl, _⟩
  · rw [none]
  · exact absurd (based range (by simp)) inside

/-! ## The round trip -/

section RoundTrip
variable {σ : Type}

/-- The frames drawn for the pages themselves, as they are mapped one after the other. -/
def dataFrames (alloc : FrameAllocator σ) (pml4Physical : Addr) : Physical σ → List Addr → List Addr
  | _, [] => []
  | st, virt :: rest => (alloc.allocatePage st.frames).1 ::
      dataFrames alloc pml4Physical
        (mapPage alloc pml4Physical userspaceDefaultPagingFlags st virt) rest

/-- A byte of a range. -/
def Includes (range : AddressRange) (virt : Addr) : Prop := (virt - range.base).toNat < range.pages.toNat * 4096

/-- What an unmap of the pages that `vmMap` anywhere had mapped should leave. -/
structure Undone (alloc : LawfulAllocator σ) (before after : Process σ) (size : BitVec 64) : Prop where
  free : ∀ virt ∈ stackPages before size, (∃ range ∈ after.memoryAllocator, Includes range virt) ∧
    ∀ range ∈ after.memoryAllocator, Includes range virt → range.used = false
  unmapped : ∀ virt ∈ stackPages before size, resolve after.physical.mem after.pml4Physical virt = none
  returned : ∀ frame ∈ dataFrames alloc before.pml4Physical before.physical
    (stackPages before size), ¬ alloc.held after.physical.frames frame

variable {alloc : LawfulAllocator σ} {proc mapped : Process σ}

/-- A request that was granted: where its range is, and what it returned. -/
theorem vmMap_granted {size pointer : BitVec 64} (pos : size ≠ 0)
    (granted : vmMap alloc proc 0 size = (some ⟨some pointer, true, none⟩, mapped)) :
    ∃ pre range post, proc.memoryAllocator = pre ++ [range] ++ post ∧ range.base ≠ 0 ∧ pointer = range.base - 8 ∧
      mapped.memoryAllocator = pre ++ take range (alignPageUp size / pageSize) ++ post ∧
      stackPages proc size = pagesFrom range.base (alignPageUp size / pageSize) := by
  rw [vmMap, if_neg pos, if_neg (by simp)] at granted
  rcases allocateRange_cases proc.memoryAllocator (alignPageUp size / pageSize) with
    ⟨missed, _⟩ | ⟨pre, range, post, shape, _, _, taken⟩
  · simp [vmMapAnywhere, allocateStack, missed] at granted
  · by_cases null : range.base = 0
    · simp [vmMapAnywhere, allocateStack, taken, null] at granted
    · simp only [vmMapAnywhere, allocateStack, taken, null, if_false] at granted
      split at granted
      · simp at granted
      · simp only [Prod.mk.injEq, Option.some.injEq, VMMapReply.mk.injEq, and_true] at granted
        obtain ⟨rfl, rfl⟩ := granted
        have given : rangeGiven proc.memoryAllocator size = range.base := congrArg Prod.fst taken
        refine ⟨pre, range, post, shape, null, rfl, rfl, ?_⟩
        rw [stackPages, pagesIn, given, if_neg null]

theorem pages_positive {size : BitVec 64} (pos : size ≠ 0) (bound : size.toNat ≤ 2 ^ 48) :
    0 < (alignPageUp size / pageSize).toNat := by
  have value : size.toNat ≠ 0 := fun zero => pos (BitVec.eq_of_toNat_eq zero)
  rw [BitVec.toNat_udiv, alignPageUp_toNat (by omega), pageSize_toNat]
  omega

/-- After any requests to the ranges of a process, whatever `vmMap` anywhere grants,
`vmUnmap` of the pointer it returned changes nothing at all: the mapping is not undone. -/
theorem unmap_never_undoes (alloc : LawfulAllocator σ) (proc mapped : Process σ)
    (requests : List RangePartition.Request) (reached : proc.memoryAllocator = processRanges requests)
    (size pointer : BitVec 64) (pos : size ≠ 0) (bound : size.toNat ≤ 2 ^ 48)
    (granted : vmMap alloc proc 0 size = (some ⟨some pointer, true, none⟩, mapped)) :
    (vmUnmap mapped pointer).2 = mapped ∧ ¬ Undone alloc proc (vmUnmap mapped pointer).2 size := by
  obtain ⟨pre, range, post, shape, nonzero, rfl, ranges, pages⟩ := vmMap_granted pos granted
  have based := processRanges_based requests
  rw [← reached, shape] at based
  have page := based range (by simp)
  have still := replace_based based fun page => take_based page (alignPageUp size / pageSize)
  rw [← ranges] at still
  have inside : (range.base - 8).toNat % 4096 ≠ 0 := by
    have low : range.base.toNat ≠ 0 := fun zero => nonzero (BitVec.eq_of_toNat_eq zero)
    have limit := range.base.isLt
    rw [BitVec.toNat_sub, show (8 : BitVec 64).toNat = 8 from rfl]
    omega
  have same : (vmUnmap mapped (range.base - 8)).2 = mapped := by
    rw [vmUnmap, freeStack, freeRange_inside still inside]
  refine ⟨same, ?_⟩
  rw [same]
  intro undone
  have pos := pages_positive pos bound
  have first : range.base ∈ stackPages proc size := by
    rw [pages, pagesFrom]
    exact List.mem_map.mpr ⟨0, List.mem_range.mpr pos, by simp⟩
  have kept : ({ range with used := true, pages := alignPageUp size / pageSize } : AddressRange) ∈
      mapped.memoryAllocator := by
    rw [ranges]
    simp [take]
  have included : Includes { range with used := true, pages := alignPageUp size / pageSize } range.base := by
    simp only [Includes, BitVec.sub_self]
    exact Nat.mul_pos pos (by omega)
  cases (undone.free range.base first).2 _ kept included

end RoundTrip

/-! ## The small process -/

theorem unmap_never_undoes_one_byte :
    ∃ mapped, vmMap physicalAllocator smallProcess 0 1 = (some ⟨some 0xff8, true, none⟩, mapped) ∧
      ¬ Undone smallLaws smallProcess (vmUnmap mapped 0xff8).2 1 := by
  have reply : (vmMap physicalAllocator smallProcess 0 1).1 = some ⟨some 0xff8, true, none⟩ := by
    decide +kernel
  refine ⟨(vmMap physicalAllocator smallProcess 0 1).2, Prod.ext reply rfl, ?_⟩
  exact (unmap_never_undoes smallLaws smallProcess _ [] rfl 1 0xff8 (by decide) (by decide)
    (Prod.ext reply rfl)).2

/-- One byte is mapped and unmapped: its range is still used, its page still has
its frame, and the frame is still out. -/
theorem unmap_keeps_page : let mapped := (vmMap physicalAllocator smallProcess 0 1).2
    let after := (vmUnmap mapped 0xff8).2
    (vmMap physicalAllocator smallProcess 0 1).1 = some ⟨some 0xff8, true, none⟩ ∧
      after.memoryAllocator = [⟨0x1000, 1, true⟩, ⟨0x2000, 0xffff3fffffffe, false⟩] ∧
      stackPages smallProcess 1 = [0x1000] ∧
      dataFrames physicalAllocator smallProcess.pml4Physical smallProcess.physical [0x1000] = [0x4000] ∧
      resolve after.physical.mem after.pml4Physical 0x1000 = some 0x4000 ∧
      after.physical.frames.memoryBitmap.get 4 = false := by
  decide +kernel

end LunaOS.UserUnmap
