import LunaOS.Exhaustion
import LunaOS.KernelHalf
import LunaOS.PageUnmapping

/-! The teardown of a process (`k_userspace_allocator::free`). The start of the
code area is never set by the requests for stacks and ranges, so the first loop
runs over every page below the direct map, and it goes past the end of the
addresses the tables tell apart: the pages at 0, 2⁴⁸ and 2⁴⁹ share their entries. -/
namespace LunaOS.ProcessTeardown
open ByteMemory PageArithmetic PageTables RangeAllocator UserspaceAllocator PageTableTree PageUnmapping BitVec
open PageTranslation
open Exhaustion (Call)
open BitmapAllocator (physicalAllocator)

/-! ## Clearing present bits -/

theorem byte_unset (word : BitVec 64) (small : offset < 8) :
    (unsetFlag word pagetablePresent).extractLsb' (8 * offset) 8 =
      if offset = 0 then word.extractLsb' (8 * offset) 8 &&& 0xfe else word.extractLsb' (8 * offset) 8 := by
  have cases : offset = 0 ∨ offset = 1 ∨ offset = 2 ∨ offset = 3 ∨ offset = 4 ∨ offset = 5 ∨ offset = 6 ∨
    offset = 7 := by omega
  simp only [unsetFlag, pagetablePresent, BitVec.extractLsb'_and]
  rcases cases with rfl | rfl | rfl | rfl | rfl | rfl | rfl | rfl
  · rfl
  all_goals exact and_allOnes

def WordAligned (address : Addr) : Prop := address.toNat % 8 = 0

/-- Memory in which present bits, and no other bits, may have been cleared. -/
def Dims (before after : Memory) : Prop :=
  ∀ address, after address = before address ∨ WordAligned address ∧ after address = before address &&& 0xfe

theorem dims_rfl (mem : Memory) : Dims mem mem := fun _ => .inl rfl

theorem Dims.trans (first : Dims before middle) (second : Dims middle after) : Dims before after := by
  intro address
  rcases first address with same | ⟨aligned, cleared⟩
  · rw [← same]
    exact second address
  · rcases second address with same' | ⟨_, cleared'⟩
    · exact .inr ⟨aligned, same'.trans cleared⟩
    · refine .inr ⟨aligned, ?_⟩
      rw [cleared', cleared, BitVec.and_assoc, BitVec.and_self]

/-- A word that is as it was or has lost its present bit. -/
def Faded (entry now : BitVec 64) : Prop := now = entry ∨ now = unsetFlag entry pagetablePresent

theorem aligned_within {base : Addr} (aligned : WordAligned base) (small : offset < 8)
    (word : WordAligned (base + BitVec.ofNat 64 offset)) : offset = 0 := by
  unfold WordAligned at aligned word
  rw [toNat_add, toNat_ofNat] at word
  omega

theorem Dims.load (dims : Dims before after) (aligned : WordAligned base) :
    Faded (load64 before base) (load64 after base) := by
  have later : ∀ offset < 8, offset ≠ 0 →
      after (base + BitVec.ofNat 64 offset) = before (base + BitVec.ofNat 64 offset) := by
    intro offset small pos
    rcases dims (base + BitVec.ofNat 64 offset) with same | ⟨word, _⟩
    · exact same
    · exact absurd (aligned_within aligned small word) pos
  rcases dims base with same | ⟨_, cleared⟩
  · left
    apply load64_congr
    intro offset small
    by_cases zero : offset = 0
    · simpa [zero] using same
    · exact later offset small zero
  · right
    apply eq_of_bytes
    intro offset small
    rw [byte_unset _ small, byte_load64 _ _ small, byte_load64 _ _ small]
    by_cases zero : offset = 0
    · simpa [zero] using cleared
    · simp only [if_neg zero, later offset small zero]

theorem store_dims (aligned : WordAligned base) (faded : Faded entry (load64 mem base)) :
    Dims mem (store64 mem base (unsetFlag entry pagetablePresent)) := by
  have written : unsetFlag entry pagetablePresent = unsetFlag (load64 mem base) pagetablePresent := by
    rcases faded with same | same
    · rw [same]
    · rw [same]
      simp only [unsetFlag, BitVec.and_assoc, BitVec.and_self]
  rw [written]
  intro address
  by_cases inside : (address - base).toNat < 8
  · have place : address = base + BitVec.ofNat 64 (address - base).toNat := by
      rw [ofNat_toNat, setWidth_eq]
      bv_omega
    have stored : store64 mem base (unsetFlag (load64 mem base) pagetablePresent) address =
        (unsetFlag (load64 mem base) pagetablePresent).extractLsb' (8 * (address - base).toNat) 8 :=
      write_of_lt inside
    rw [byte_unset _ inside, byte_load64 _ _ inside, ← place] at stored
    by_cases zero : (address - base).toNat = 0
    · right
      rw [if_pos zero] at stored
      refine ⟨?_, stored⟩
      rw [zero] at place
      simpa [place] using aligned
    · left
      rw [if_neg zero] at stored
      exact stored
  · exact .inl (write_of_le (by omega))


theorem readEntry_slot (mem : Memory) (table : Addr) (index : BitVec 64) :
    readEntry mem (applyDirectmap table) index = load64 mem (table + 8 * index) := by
  unfold readEntry removeDirectmap applyDirectmap
  congr 1
  bv_omega

theorem writeEntry_slot (mem : Memory) (table : Addr) (index entry : BitVec 64) :
    writeEntry mem (applyDirectmap table) index entry = store64 mem (table + 8 * index) entry := by
  unfold writeEntry removeDirectmap applyDirectmap
  congr 1
  bv_omega

theorem slot_aligned (aligned : WordAligned table) (index : BitVec 64) : WordAligned (table + 8 * index) := by
  unfold WordAligned at *
  rw [toNat_add, toNat_mul, show BitVec.toNat (8 : BitVec 64) = 8 from rfl]
  omega

theorem exclude_word_aligned (entry : BitVec 64) : WordAligned (addressExclude entry) := by
  have page := addressExclude_aligned entry
  unfold WordAligned
  omega

theorem Faded.address (faded : Faded entry now) : addressExclude now = addressExclude entry := by
  rcases faded with rfl | rfl
  · rfl
  · simp only [addressExclude, unsetFlag, BitVec.and_assoc]
    rfl

theorem Faded.absent (faded : Faded entry now) (absent : checkFlag entry pagetablePresent = false) :
    checkFlag now pagetablePresent = false := by
  rcases faded with rfl | rfl
  · exact absent
  · exact unset_absent entry

/-! ## Ways down the tables -/

/-- The address of the last entry on a way down the tables, when the entries above it are present. -/
def leafSlot (mem : Memory) : Addr → List (BitVec 64) → Option Addr
  | _, [] => none
  | table, [index] => some (table + 8 * index)
  | table, index :: rest =>
    let entry := readEntry mem (applyDirectmap table) index
    if checkFlag entry pagetablePresent then leafSlot mem (addressExclude entry) rest else none

/-- No page is mapped at the end of the way. -/
def Absent (mem : Memory) (table : Addr) (path : List (BitVec 64)) : Prop :=
  ∀ slot, leafSlot mem table path = some slot → checkFlag (load64 mem slot) pagetablePresent = false

/-- The way of an address; bits 48 and above are not on it. -/
def indexes (virt : Addr) : List (BitVec 64) := [pml4Indexer virt, pdptIndexer virt, pdIndexer virt, ptIndexer virt]

theorem leafSlot_aligned (aligned : WordAligned table) (found : leafSlot mem table path = some slot) :
    WordAligned slot := by
  induction path generalizing table with
  | nil => cases found
  | cons index rest ih =>
    cases rest with
    | nil =>
      obtain rfl : table + 8 * index = slot := by simpa [leafSlot] using found
      exact slot_aligned aligned index
    | cons next rest =>
      simp only [leafSlot] at found
      split at found
      · exact ih (exclude_word_aligned _) found
      · cases found

/-- Clearing present bits takes ways away and never moves one. -/
theorem Dims.leafSlot (dims : Dims before after) (aligned : WordAligned table)
    (found : leafSlot after table path = some slot) : leafSlot before table path = some slot := by
  induction path generalizing table with
  | nil => cases found
  | cons index rest ih =>
    cases rest with
    | nil => simpa [ProcessTeardown.leafSlot] using found
    | cons next rest =>
      have faded := dims.load (slot_aligned aligned index)
      simp only [ProcessTeardown.leafSlot, readEntry_slot] at found ⊢
      split at found
      · rename_i present
        have there : checkFlag (load64 before (table + 8 * index)) pagetablePresent = true := by
          by_contra absent
          rw [faded.absent (by simpa using absent)] at present
          cases present
        rw [if_pos there, ← faded.address]
        exact ih (exclude_word_aligned _) found
      · cases found

theorem Absent.dims (absent : Absent before table path) (dims : Dims before after) (aligned : WordAligned table) :
    Absent after table path := by
  intro slot found
  have there := dims.leafSlot aligned found
  exact (dims.load (leafSlot_aligned aligned there)).absent (absent slot there)

/-- What one unmap does to the tables. -/
inductive Unmapped (root : Addr) (path : List (BitVec 64)) (before after : Memory) : Addr → Prop
  | missed : Absent before root path → after = before → Unmapped root path before after 0
  | cleared {slot : Addr} : leafSlot before root path = some slot →
      checkFlag (load64 before slot) pagetablePresent = true →
      Dims (store64 before slot (unsetFlag (load64 before slot) pagetablePresent)) after →
      Unmapped root path before after (addressExclude (load64 before slot))

section Cleared
variable (unmapped : Unmapped root path before after phys)
include unmapped

theorem Unmapped.dims (aligned : WordAligned root) : Dims before after := by
  cases unmapped with
  | missed _ same => exact same ▸ dims_rfl before
  | cleared found _ dims => exact (store_dims (leafSlot_aligned aligned found) (.inl rfl)).trans dims

theorem Unmapped.absent (aligned : WordAligned root) : Absent after root path := by
  cases unmapped with
  | missed absent same => exact same ▸ absent
  | @cleared slot found _ dims =>
    refine Absent.dims ?_ dims aligned
    intro other there
    have below : Dims before (store64 before slot (unsetFlag (load64 before slot) pagetablePresent)) :=
      store_dims (leafSlot_aligned aligned found) (.inl rfl)
    have same := found.symm.trans (below.leafSlot aligned there)
    obtain rfl : slot = other := by simpa using same
    rw [load64_store64]
    exact unset_absent _

theorem Unmapped.zero (absent : Absent before root path) : phys = 0 := by
  cases unmapped with
  | missed _ _ => rfl
  | cleared found present _ =>
    rw [absent _ found] at present
    cases present

end Cleared

/-- A table is dropped by an entry read before the page was cleared. -/
theorem dropTable_dims {σ : Type} (alloc : FrameAllocator σ) {st : Physical σ}
    (dims : Dims before st.mem) (aligned : WordAligned table) (entry : load64 before (table + 8 * index) = word) :
    Dims st.mem (dropTable alloc st (applyDirectmap table) index word).mem := by
  simp only [dropTable, writeEntry_slot]
  apply store_dims (slot_aligned aligned index)
  exact entry ▸ dims.load (slot_aligned aligned index)

theorem unmap_unmapped {σ : Type} (alloc : FrameAllocator σ) (st : Physical σ) (virt : Addr)
    (aligned : WordAligned root) :
    Unmapped root (indexes virt) st.mem (pagingUnmapPageInSpace alloc st virt root).2.mem
      (pagingUnmapPageInSpace alloc st virt root).1 := by
  simp only [pagingUnmapPageInSpace, unmapPageScanning, readEntry_slot, writeEntry_slot]
  generalize top : load64 st.mem (root + 8 * pml4Indexer virt) = pml4e
  generalize middle : load64 st.mem (addressExclude pml4e + 8 * pdptIndexer virt) = pdpte
  generalize bottom : load64 st.mem (addressExclude pdpte + 8 * pdIndexer virt) = pde
  have way : leafSlot st.mem root (indexes virt) = if checkFlag pml4e pagetablePresent then
        if checkFlag pdpte pagetablePresent then
          if checkFlag pde pagetablePresent then some (addressExclude pde + 8 * ptIndexer virt) else none
        else none
      else none := by
    simp only [leafSlot, indexes, readEntry_slot, top, middle, bottom]
  cases topFlag : checkFlag pml4e pagetablePresent with
  | false => exact .missed (by simp [Absent, way, topFlag]) rfl
  | true =>
  cases middleFlag : checkFlag pdpte pagetablePresent with
  | false => exact .missed (by simp [Absent, way, middleFlag]) rfl
  | true =>
  cases bottomFlag : checkFlag pde pagetablePresent with
  | false => exact .missed (by simp [Absent, way, bottomFlag]) rfl
  | true =>
  simp only [topFlag, middleFlag, bottomFlag, if_true] at way
  have ptAligned := slot_aligned (exclude_word_aligned pde) (ptIndexer virt)
  generalize addressExclude pde + 8 * ptIndexer virt = slot at *
  cases last : checkFlag (load64 st.mem slot) pagetablePresent with
  | false => exact .missed (by simpa [Absent, way] using last) rfl
  | true =>
    simp only [Bool.not_true, Bool.false_eq_true, if_false]
    let leaf : Physical σ :=
      ⟨store64 st.mem slot (unsetFlag (load64 st.mem slot) pagetablePresent), st.frames⟩
    have cleared : Dims st.mem leaf.mem := store_dims ptAligned (.inl rfl)
    have first := dropTable_dims alloc cleared (exclude_word_aligned pdpte) bottom
    have second := dropTable_dims alloc (cleared.trans first) (exclude_word_aligned pml4e) middle
    have third := dropTable_dims alloc ((cleared.trans first).trans second) aligned top
    split
    · exact .cleared way last (dims_rfl _)
    split
    · exact .cleared way last first
    split
    · exact .cleared way last (first.trans second)
    · exact .cleared way last ((first.trans second).trans third)

/-! ## The teardown -/

/-- `k_userspace_allocator` with the fields its teardown reads, beside the ranges
of the kernel and the data frames its calls have mapped. -/
structure Space (σ : Type) where
  proc : Process σ
  userspaceCodeStart : Addr
  userspaceHeapStart : Addr
  kernelspaceRanges : List AddressRange
  kernelRanges : List AddressRange
  mapped : List Addr

section Teardown
variable {σ : Type} (alloc : FrameAllocator σ)

/-- The constructor, which sets no `kernelspaceRanges`. -/
def constructSpace (st : Physical σ) (current : Addr) (kernelspaceRanges kernelRanges : List AddressRange) :
    Space σ :=
  ⟨constructProcess alloc st current, 0, 0, kernelspaceRanges, kernelRanges, []⟩

/-- The data frames a loop over pages maps; a page that is present keeps the frame it has. -/
def mappedFrames (pml4Physical : Addr) (flags : PagingFlags) : Physical σ → List Addr → List Addr
  | _, [] => []
  | st, virt :: rest =>
    let phys := (alloc.allocatePage st.frames).1
    let later := mappedFrames pml4Physical flags (mapPage alloc pml4Physical flags st virt) rest
    match leafSlot st.mem pml4Physical (indexes virt) with
    | some slot => if checkFlag (load64 st.mem slot) pagetablePresent then later else phys :: later
    | none => phys :: later

/-- The header of a kernel stack: `range->next = kernelspaceRanges; kernelspaceRanges = range->next`. -/
def keepRange (kernelspaceRanges : List AddressRange) (range : AddressRange) : List AddressRange :=
  (range :: kernelspaceRanges).tail

/-- `allocateInterruptStack`, and `allocateStack` for a kernel stack. -/
def allocateKernelStack (space : Space σ) (stackSize : BitVec 64) : Space σ :=
  let pages := alignPageUp stackSize / pageSize
  let stackPtr := (RangeAllocator.allocateRange space.kernelRanges pages).1
  let (_, kernelRanges, proc) := allocateInterruptStack alloc space.kernelRanges space.proc stackSize
  { space with
    proc, kernelRanges
    kernelspaceRanges := keepRange space.kernelspaceRanges ⟨stackPtr, pages, false⟩
    mapped := space.mapped ++ mappedFrames alloc space.proc.pml4Physical pagingDefaultFlags
      space.proc.physical (pagesIn space.kernelRanges stackSize) }

/-- `allocateStack` for a user stack. -/
def allocateUserStack (space : Space σ) (stackSize : BitVec 64) : Space σ :=
  { space with
    proc := (allocateStack alloc space.proc stackSize).2
    mapped := space.mapped ++ mappedFrames alloc space.proc.pml4Physical userspaceDefaultPagingFlags
      space.proc.physical (stackPages space.proc stackSize) }

/-- `allocateRange`; `none` is a fault. -/
def allocateSpaceRange (space : Space σ) (start size : BitVec 64) : Option (Space σ) :=
  let pages := rangePages start size
  let found := (useRange space.proc.memoryAllocator (alignPageDown start) pages).1
  match UserspaceAllocator.allocateRange alloc space.proc start size with
  | (none, _) => none
  | (some _, proc) => some { space with
      proc
      mapped := space.mapped ++ mappedFrames alloc space.proc.pml4Physical userspaceDefaultPagingFlags
        space.proc.physical (if found then pagesFrom start pages else []) }

def perform (space : Space σ) : Call → Option (Space σ)
  | .allocateStack stackSize true => some (allocateKernelStack alloc space stackSize)
  | .allocateStack stackSize false => some (allocateUserStack alloc space stackSize)
  | .allocateInterruptStack stackSize => some (allocateKernelStack alloc space stackSize)
  | .allocateRange start size => allocateSpaceRange alloc space start size

/-- `getUserspaceCodeEnd` -/
def userspaceCodeEnd : Addr := 0xffff800000000000

/-- The pages of a loop from `start` while below `finish`. -/
def pagesBetween (start finish : Addr) : List Addr :=
  (List.range ((finish.toNat - start.toNat + 4095) / 4096)).map fun page => start + BitVec.ofNat 64 page * pageSize

/-- A page unmapped and the frame found freed, with the frames freed so. -/
def releasePage (pml4Physical : Addr) (state : Physical σ × List Addr) (virt : Addr) : Physical σ × List Addr :=
  let (phys, st) := pagingUnmapPageInSpace alloc state.1 virt pml4Physical
  ({ st with frames := alloc.freePage st.frames phys }, state.2 ++ [phys])

def releasePages (pml4Physical : Addr) (state : Physical σ × List Addr) (virts : List Addr) :
    Physical σ × List Addr := virts.foldl (releasePage alloc pml4Physical) state

/-- The pages of the ranges in use. -/
def usedPages (ranges : List AddressRange) : List Addr :=
  (ranges.filter (·.used)).flatMap fun range => pagesFrom range.base range.pages

/-- `k_userspace_allocator::free`, with the arguments of its calls of `freePage` in order. -/
def free (space : Space σ) : Physical σ × List Addr :=
  let root := space.proc.pml4Physical
  let state := releasePages alloc root (space.proc.physical, [])
    (pagesBetween space.userspaceCodeStart userspaceCodeEnd)
  let state := releasePages alloc root state
    (pagesBetween space.userspaceHeapStart space.userspaceCodeStart)
  let state := releasePages alloc root state (usedPages space.proc.memoryAllocator)
  releasePages alloc root state (usedPages space.kernelspaceRanges)

/-- Each frame mapped is freed once, and no other frame is. -/
def FreesExactly (freed mapped : List Addr) : Prop :=
  (∀ frame ∈ mapped, freed.count frame = 1) ∧ ∀ frame ∈ freed, frame ∈ mapped

end Teardown

/-! ## What the loops free -/

section Loops
variable {σ : Type} (alloc : FrameAllocator σ)

theorem releasePage_unmapped (state : Physical σ × List Addr) (virt : Addr) (aligned : WordAligned root) :
    ∃ phys, (releasePage alloc root state virt).2 = state.2 ++ [phys] ∧
      Unmapped root (indexes virt) state.1.mem (releasePage alloc root state virt).1.mem phys :=
  ⟨_, rfl, unmap_unmapped alloc state.1 virt aligned⟩

theorem releasePages_grows (state : Physical σ × List Addr) (virts : List Addr) :
    state.2 <+: (releasePages alloc root state virts).2 := by
  induction virts generalizing state with
  | nil => exact List.prefix_rfl
  | cons virt rest ih =>
    refine List.IsPrefix.trans ?_ (ih (releasePage alloc root state virt))
    exact List.prefix_append _ _

/-- A page that is absent is reported as frame 0 each time its entries come up. -/
theorem absent_freed (aligned : WordAligned root) (absent : Absent state.1.mem root (indexes virt))
    (virts : List Addr) : state.2.count 0 + virts.countP (fun other => indexes other = indexes virt) ≤
      (releasePages alloc root state virts).2.count 0 := by
  induction virts generalizing state with
  | nil => exact Nat.le_refl _
  | cons other rest ih =>
    obtain ⟨phys, freed, unmapped⟩ := releasePage_unmapped alloc state other aligned
    have later := ih (absent.dims (unmapped.dims aligned) aligned)
    rw [freed, List.count_append] at later
    rw [List.countP_cons]
    refine Nat.le_trans ?_ later
    by_cases shared : indexes other = indexes virt
    · have zero := unmapped.zero (shared ▸ absent)
      simp only [shared, zero, decide_true, if_true, List.count_singleton_self]
      omega
    · simp only [shared, decide_false, Bool.false_eq_true, if_false]
      omega

/-- The pages of the code area after the first, which come back to it at 2⁴⁸ and 2⁴⁹. -/
def laterPages (count : Nat) : List Addr := (List.range' 1 count).map fun page => 0 + BitVec.ofNat 64 page * pageSize

theorem laterPages_shared (many : 2 ^ 37 ≤ count) :
    2 ≤ (laterPages count).countP (fun other => indexes other = indexes 0) := by
  have inside : [2 ^ 36, 2 ^ 37] ⊆ List.range' 1 count := by
    intro page member
    simp only [List.mem_cons, List.not_mem_nil, or_false] at member
    rw [List.mem_range'_1]
    omega
  have both : [2 ^ 36, 2 ^ 37].Subperm (List.range' 1 count) := List.subperm_of_subset (by simp) inside
  rw [laterPages, List.countP_map]
  exact Nat.le_trans (by decide) (both.countP_le _)

theorem code_pages : pagesBetween 0 userspaceCodeEnd = 0 :: laterPages 4503565267632127 := by
  have count : (userspaceCodeEnd.toNat - (0 : Addr).toNat + 4095) / 4096 = 4503565267632127 + 1 := by decide
  rw [pagesBetween, count, List.range_eq_range', List.range'_succ, List.map_cons]
  rfl

/-- The teardown frees what the unmap of page 0 reports first, and frame 0 twice. -/
theorem free_code (space : Space σ) (aligned : WordAligned space.proc.pml4Physical)
    (code : pagesBetween space.userspaceCodeStart userspaceCodeEnd = 0 :: later)
    (shared : 2 ≤ later.countP (fun other => indexes other = indexes 0)) :
    [(pagingUnmapPageInSpace alloc space.proc.physical 0 space.proc.pml4Physical).1] <+: (free alloc space).2 ∧
      2 ≤ (free alloc space).2.count 0 := by
  let root := space.proc.pml4Physical
  let begun := releasePage alloc root (space.proc.physical, []) 0
  have rest : (releasePages alloc root begun later).2 <+: (free alloc space).2 := by
    rw [free, code]
    exact ((releasePages_grows alloc _ _).trans (releasePages_grows alloc _ _)).trans
      (releasePages_grows alloc _ _)
  constructor
  · exact (releasePages_grows alloc begun later).trans rest
  · have absent : Absent begun.1.mem root (indexes 0) :=
      (unmap_unmapped alloc space.proc.physical 0 aligned).absent aligned
    calc
      2 ≤ later.countP (fun other => indexes other = indexes 0) := shared
      _ ≤ begun.2.count 0 + later.countP (fun other => indexes other = indexes 0) := Nat.le_add_left _ _
      _ ≤ (releasePages alloc root begun later).2.count 0 := absent_freed alloc aligned absent later
      _ ≤ (free alloc space).2.count 0 := rest.sublist.count_le 0

theorem kernelStack_root (space : Space σ) (stackSize : BitVec 64) :
    (allocateKernelStack alloc space stackSize).proc.pml4Physical = space.proc.pml4Physical := by
  simp only [allocateKernelStack, allocateInterruptStack_eq]

theorem perform_kept {space next : Space σ} (done : perform alloc space call = some next) :
    next.userspaceCodeStart = space.userspaceCodeStart ∧ next.proc.pml4Physical = space.proc.pml4Physical := by
  cases call with
  | allocateStack stackSize kernelStack =>
    cases kernelStack with
    | true =>
      cases done
      exact ⟨rfl, kernelStack_root alloc space stackSize⟩
    | false =>
      cases done
      exact ⟨rfl, congrArg (·.2.pml4Physical) (allocateStack_eq alloc space.proc stackSize)⟩
  | allocateInterruptStack stackSize =>
    cases done
    exact ⟨rfl, kernelStack_root alloc space stackSize⟩
  | allocateRange start size =>
    simp only [perform, allocateSpaceRange] at done
    rcases rangeAt_cases alloc space.proc start size with ⟨_, same⟩ | ⟨_, fault | ⟨mem, _, same⟩⟩
    · rw [same] at done
      cases done
      exact ⟨rfl, rfl⟩
    · split at done
      · cases done
      · rename_i same
        rw [same] at fault
        cases fault
    · rw [same] at done
      cases done
      exact ⟨rfl, rfl⟩

theorem calls_kept {space next : Space σ} {calls : List Call} (done : calls.foldlM (perform alloc) space = some next) :
    next.userspaceCodeStart = space.userspaceCodeStart ∧ next.proc.pml4Physical = space.proc.pml4Physical := by
  induction calls generalizing space with
  | nil =>
    obtain rfl : space = next := by simpa using done
    exact ⟨rfl, rfl⟩
  | cons call rest ih =>
    rw [List.foldlM_cons] at done
    obtain ⟨middle, first, later⟩ := Option.bind_eq_some_iff.mp done
    obtain ⟨start, root⟩ := perform_kept alloc first
    obtain ⟨start', root'⟩ := ih later
    exact ⟨start'.trans start, root'.trans root⟩

end Loops

theorem nextBlock_aligned (frames : BitmapAllocator.Allocator) : WordAligned (BitmapAllocator.nextBlock frames) := by
  unfold BitmapAllocator.nextBlock
  split
  · rfl
  · split
    · rename_i index _
      unfold WordAligned
      rw [toNat_mul, toNat_ofNat, pageSize_toNat]
      omega
    · rfl

/-- However a process has used its space, its teardown frees frame 0 at least
twice, so it never frees each mapped frame once and nothing else. -/
theorem teardown_never_exact (st : Physical BitmapAllocator.Allocator) (current : Addr)
    (kernelspaceRanges kernelRanges : List AddressRange) (calls : List Call) (space : Space BitmapAllocator.Allocator)
    (reached : calls.foldlM (perform physicalAllocator)
      (constructSpace physicalAllocator st current kernelspaceRanges kernelRanges) = some space) :
    2 ≤ (free physicalAllocator space).2.count 0 ∧ ¬ FreesExactly (free physicalAllocator space).2 space.mapped := by
  obtain ⟨start, root⟩ := calls_kept physicalAllocator reached
  have aligned : WordAligned space.proc.pml4Physical := root ▸ nextBlock_aligned st.frames
  have code : pagesBetween space.userspaceCodeStart userspaceCodeEnd = 0 :: laterPages 4503565267632127 := by
    rw [start]
    exact code_pages
  have twice := (free_code physicalAllocator space aligned code (laterPages_shared (by decide))).2
  refine ⟨twice, ?_⟩
  rintro ⟨once, only⟩
  have freed : 0 ∈ (free physicalAllocator space).2 := List.count_pos_iff.mp (by omega)
  have single := once 0 (only 0 freed)
  omega

/-- A process of the small machine, just made. -/
def freshSpace : Space BitmapAllocator.Allocator :=
  constructSpace physicalAllocator smallSpace smallRoot.val [] []

/-- One page of stack, in the frame at 0x4000. -/
theorem teardown_never_exact_stack :
    ∃ space, [Call.allocateStack 0x1000 false].foldlM (perform physicalAllocator) freshSpace =
        some space ∧ space.mapped = [0x4000] ∧ ¬ FreesExactly (free physicalAllocator space).2 space.mapped :=
  ⟨allocateUserStack physicalAllocator freshSpace 0x1000, rfl, by decide +kernel,
    (teardown_never_exact smallSpace smallRoot.val [] [] [.allocateStack 0x1000 false] _ rfl).2⟩

theorem stray_free (begun : [frame] <+: freed) : freed.head? = some frame ∧ ¬ FreesExactly freed [] := by
  obtain ⟨later, rfl⟩ := begun
  refine ⟨rfl, ?_⟩
  rintro ⟨_, only⟩
  exact List.not_mem_nil (only frame List.mem_cons_self)

/-- A process that has mapped nothing frees frame 0 first of all. -/
theorem fresh_frees_zero : freshSpace.mapped = [] ∧ (free physicalAllocator freshSpace).2.head? = some 0 ∧
    ¬ FreesExactly (free physicalAllocator freshSpace).2 freshSpace.mapped := by
  have first : (pagingUnmapPageInSpace physicalAllocator freshSpace.proc.physical 0
      freshSpace.proc.pml4Physical).1 = 0 := by decide +kernel
  have root : WordAligned freshSpace.proc.pml4Physical := nextBlock_aligned smallSpace.frames
  have begun := (free_code physicalAllocator freshSpace root code_pages
    (laterPages_shared (by decide))).1
  rw [first] at begun
  exact ⟨rfl, stray_free begun⟩

end LunaOS.ProcessTeardown
