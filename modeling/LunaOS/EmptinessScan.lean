import LunaOS.PageTranslation
import LunaOS.PageUnmapping
import Mathlib.Data.Fintype.Pi

/-! The loop counter of `pagingIsPagetableEmpty` is never initialised. From a
counter that is not positive the scan passes all 512 entries and the unmap
changes its own page only; from any other it overlooks the first entry, and a
page table that still maps a page is freed. -/
namespace LunaOS.EmptinessScan
open ByteMemory PageTables PageTableTree PageMapping FrameExclusivity PageTranslation PageUnmapping
open BitmapAllocator (physicalAllocator)

/-- `pagingUnmapPageInSpace`, from the values the three counters happen to have. -/
def unmapPageCounting {σ : Type} (alloc : FrameAllocator σ) (counters : Fin 3 → BitVec 32)
    (st : Physical σ) (virt pml4Addr : Addr) : Addr × Physical σ :=
  unmapPageScanning alloc (fun level => isPagetableEmptyFrom (counters level)) st virt pml4Addr

/-- The unmap is the one whose counters start at 0. -/
theorem unmap_counts_from_zero {σ : Type} (alloc : FrameAllocator σ) :
    unmapPageCounting alloc (fun _ => 0) = pagingUnmapPageInSpace alloc := by
  have scan : isPagetableEmptyFrom 0 = pagingIsPagetableEmpty := by
    funext mem pagetable
    simp [isPagetableEmptyFrom, pagingIsPagetableEmpty, pagetableSize]
  funext st virt pml4Addr
  simp only [unmapPageCounting, pagingUnmapPageInSpace, scan]

/-- A counter that is not positive reaches every entry. -/
theorem scan_sound {counter : BitVec 32} (early : counter.toInt ≤ 0) {mem : Memory} {table : Frame}
    (empty : isPagetableEmptyFrom counter mem (applyDirectmap table.val) = true) : Bare mem table := by
  intro key
  have small : key.toNat < 512 := key.isLt
  rw [isPagetableEmptyFrom, List.all_eq_true] at empty
  have entry := empty (key.toNat - counter.toInt).toNat (List.mem_range.mpr (by simp only [pagetableSize]; omega))
  have turn : counter.toInt + ((key.toNat - counter.toInt).toNat : Int) = key.toNat := by omega
  rw [turn, BitVec.ofInt_natCast, index_key _ small, readEntry_directmap, BitVec.ofNat_toNat,
    BitVec.setWidth_eq, Bool.not_eq_true'] at entry
  exact entry

/-- A positive counter finds empty whatever the scan from 1 does. -/
theorem scan_overlooks {counter : BitVec 32} (late : 0 < counter.toInt) {mem : Memory} {pagetable : Addr}
    (empty : isPagetableEmptyFrom 1 mem pagetable = true) : isPagetableEmptyFrom counter mem pagetable = true := by
  have one : (1 : BitVec 32).toInt = 1 := rfl
  rw [isPagetableEmptyFrom, List.all_eq_true] at empty ⊢
  intro turn member
  rw [one] at empty
  have bound := List.mem_range.mp member
  have entry := empty (turn + (counter.toInt - 1).toNat) (List.mem_range.mpr (by omega))
  have same : (1 : Int) + ((turn + (counter.toInt - 1).toNat : Nat) : Int) = counter.toInt + turn := by omega
  rwa [same] at entry

section Property
variable {σ : Type}

/-- An unmap that affects its own page only. -/
structure UnmapsOnly (alloc : LawfulAllocator σ) (root : Frame) (page : Addr) (mappedPage : Frame)
    (before after : Physical σ) (returned : Addr) : Prop where
  frame : returned = mappedPage.val
  gone : leaf after.mem root (tablePath page) (ptKey page) = none
  others : ∀ virt, pageKey virt ≠ pageKey page →
    leaf after.mem root (tablePath virt) (ptKey virt) = leaf before.mem root (tablePath virt) (ptKey virt)
  walk : ∀ virt, pagingVirtualToPhysical after.mem root.val virt =
    if pageKey virt = pageKey page then 0 else pagingVirtualToPhysical before.mem root.val virt
  freed : FreesBare alloc before after

theorem unmaps_only {alloc : LawfulAllocator σ} {root : Frame} {st : Physical σ}
    {requests : List MapRequest} {request : MapRequest} {page : Addr} {isEmpty : Fin 3 → Memory → Addr → Bool}
    (scans : ScansSoundly isEmpty) (represents : Represents st.mem root requests)
    (held : TablesHeld alloc root st) (mapped : governing requests (pageKey page) = some request) :
    UnmapsOnly alloc root page request.phys st (unmapPageScanning alloc isEmpty st page root.val).2
      (unmapPageScanning alloc isEmpty st page root.val).1 := by
  obtain ⟨unmaps, returned⟩ := scanning_unmaps scans represents.tree held page
  have leaves : ∀ virt, _ := fun virt => unmaps.leaves (tablePath virt) (ptKey virt) rfl
  simp only [same_page_iff] at leaves
  refine ⟨?_, ?_, ?_, ?_, unmaps.freed⟩
  · rw [returned, represents.leaves, mapped]
    exact request.entry_address
  · rw [leaves, if_pos rfl]
  · intro virt other
    rw [leaves, if_neg (Ne.symm other)]
  · intro virt
    rw [walk_eq unmaps.tree, walk_eq represents.tree, leaves]
    by_cases own : pageKey virt = pageKey page
    · rw [if_pos own, if_pos own.symm]
      rfl
    · rw [if_neg own, if_neg (Ne.symm own)]

/-- Every unmap of a mapped page, in every space that mappings build over a lawful
allocator that is not exhausted, affects its own page only. -/
def UnmapsOnePage (counters : Fin 3 → BitVec 32) : Prop :=
  ∀ {σ : Type} (alloc : LawfulAllocator σ) (root : Frame) (mem : Memory) (frames : σ)
    (requests : List MapRequest), LowReserve alloc → alloc.sound frames →
    alloc.held frames root.val →
    Supplied alloc root (fun _ _ frame => frame ≠ 0) ⟨clearFrame mem root, frames⟩
      requests →
    ∀ page request, governing requests (pageKey page) = some request →
      let before := mapAll alloc root ⟨clearFrame mem root, frames⟩ requests
      let (returned, after) := unmapPageCounting alloc counters before page root.val
      UnmapsOnly alloc root page request.phys before after returned

theorem early_unmaps_one_page {counters : Fin 3 → BitVec 32} (early : ∀ level, (counters level).toInt ≤ 0) :
    UnmapsOnePage counters := by
  intro σ alloc root mem frames requests low sound owned supplied page request mapped
  have start := represents_cleared mem root
  have held := cleared_held mem sound owned
  have represents := represents_run start (lawful_supplied low start.tree start.blank held supplied)
  have kept := lawful_held low start.tree start.blank held supplied
  exact unmaps_only (fun level _ _ empty => scan_sound (early level) empty) represents kept mapped

end Property

/-! ## Two pages of one table -/

/-- The first two pages of a page table. -/
def neighbours : List MapRequest :=
  [userPage 0x400000 0, userPage 0x401000 1]

def neighbourSpace : Physical BitmapAllocator.Allocator :=
  mapAll physicalAllocator smallRoot smallSpace neighbours

theorem neighbours_supplied : Supplied physicalAllocator smallRoot (fun _ _ frame => frame ≠ 0)
    smallSpace neighbours := by
  simp only [neighbours, Supplied, MapDraws, DrawsAt]
  decide +kernel

theorem first_page_mapped : pagingVirtualToPhysical neighbourSpace.mem smallRoot.val 0x400123 = 0x70123 := by
  decide +kernel

theorem release_verdict {σ : Type} (alloc : FrameAllocator σ) (isEmpty : Fin 3 → Memory → Addr → Bool)
    {st : Physical σ} {pt : Frame} (found : isEmpty 0 st.mem (applyDirectmap pt.val) = true)
    (virt : Addr) (root pdpt pd : Frame) (pml4e pdpte pde : BitVec 64) : ∃ verdict : Fin 3 → Bool, verdict 0 = true ∧
      releaseTables alloc isEmpty st virt root pdpt pd pt pml4e pdpte pde =
        releaseTables alloc (fun level _ _ => verdict level) st virt root pdpt pd pt pml4e pdpte pde := by
  let cut := dropTable alloc st (applyDirectmap pd.val) ((pdKey virt).setWidth 64) pde
  let twice := dropTable alloc cut (applyDirectmap pdpt.val) ((pdptKey virt).setWidth 64) pdpte
  refine ⟨fun level => match level with
    | 0 => true
    | 1 => isEmpty 1 cut.mem (applyDirectmap pd.val)
    | 2 => isEmpty 2 twice.mem (applyDirectmap pdpt.val), rfl, ?_⟩
  simp only [releaseTables, found, cut, twice]

/-- The tables of the two pages, in the order they were drawn. -/
def neighbourTable (level : Fin 3) : Frame :=
  ⟨0x3000 + 0x1000 * BitVec.ofNat 64 level, by revert level; decide⟩

/-- The first page is no longer mapped, and its page table is marked free with the
entry still present. -/
def LosesFirstPage (after : Physical BitmapAllocator.Allocator) : Prop :=
  pagingVirtualToPhysical after.mem smallRoot.val 0x400123 = 0 ∧
    checkFlag (entryAt after.mem (neighbourTable 2) 0) pagetablePresent = true ∧
    after.frames.memoryBitmap.get ((neighbourTable 2).val / PageArithmetic.pageSize) = true

instance : Decidable (LosesFirstPage after) := inferInstanceAs (Decidable (_ ∧ _ ∧ _))

/-- Once the page table is found empty the first page is lost, whatever the other
two tests say. -/
theorem first_page_lost : ∀ verdict : Fin 3 → Bool, verdict 0 = true →
    LosesFirstPage (unmapPageScanning physicalAllocator (fun level _ _ => verdict level)
      neighbourSpace 0x401000 smallRoot.val).2 := by
  decide +kernel

/-- With the second page cleared, only the first entry of the page table is present. -/
theorem neighbours_release : ∃ cleared pml4e pdpte pde,
    isPagetableEmptyFrom 1 cleared.mem (applyDirectmap (neighbourTable 2).val) = true ∧
    ∀ isEmpty, (unmapPageScanning smallLaws isEmpty neighbourSpace 0x401000 smallRoot.val).2 =
      releaseTables smallLaws isEmpty cleared 0x401000 smallRoot (neighbourTable 0)
        (neighbourTable 1) (neighbourTable 2) pml4e pdpte pde := by
  have present : (checkFlag (entryAt neighbourSpace.mem smallRoot (pml4Key 0x401000)) pagetablePresent &&
      checkFlag (entryAt neighbourSpace.mem (neighbourTable 0) (pdptKey 0x401000)) pagetablePresent &&
      checkFlag (entryAt neighbourSpace.mem (neighbourTable 1) (pdKey 0x401000)) pagetablePresent &&
      checkFlag (entryAt neighbourSpace.mem (neighbourTable 2) (ptKey 0x401000)) pagetablePresent) = true := by
    decide +kernel
  refine ⟨_, _, _, _, ?_, fun isEmpty => congrArg Prod.snd ((unmap_eq (by decide +kernel) (by decide +kernel)
    (by decide +kernel)).trans (if_pos present))⟩
  decide +kernel

theorem late_loses_page (counters : Fin 3 → BitVec 32) (late : 0 < (counters 0).toInt) : LosesFirstPage
      (unmapPageCounting physicalAllocator counters neighbourSpace 0x401000 smallRoot.val).2 := by
  obtain ⟨cleared, pml4e, pdpte, pde, overlooked, released⟩ := neighbours_release
  obtain ⟨verdict, found, same⟩ := release_verdict smallLaws
    (fun level => isPagetableEmptyFrom (counters level)) (scan_overlooks late overlooked)
    0x401000 smallRoot (neighbourTable 0) (neighbourTable 1) pml4e pdpte pde
  have lost := first_page_lost verdict found
  have counted := released fun level => isPagetableEmptyFrom (counters level)
  rw [same, ← released] at counted
  exact counted ▸ lost

/-- Unmapping affects its own page only, for every value the counter may start
from, exactly when no such value is positive. -/
theorem unmap_one_page_iff (starts : BitVec 32 → Prop) :
    (∀ counters, (∀ level, starts (counters level)) → UnmapsOnePage counters) ↔
      ∀ counter, starts counter → counter.toInt ≤ 0 := by
  constructor
  · intro only counter possible
    by_contra late
    have sound : smallLaws.sound (BitmapAllocator.allocatePage smallAllocator).2 := small_held.sound
    have unmaps := only (fun _ => counter) (fun _ => possible) smallLaws smallRoot (fun _ => 0) _ neighbours
      small_low sound (small_held.held smallRoot ⟨[], by simp, rfl⟩) neighbours_supplied 0x401000 _ rfl
    have lost := late_loses_page (fun _ => counter) (Int.not_le.mp late)
    have kept := (unmaps.walk 0x400123).symm.trans lost.1
    rw [if_neg (by decide)] at kept
    exact absurd (first_page_mapped.symm.trans kept) (by decide)
  · intro early counters possible
    exact early_unmaps_one_page fun level => early _ (possible level)

/-- With the counters at 1, unmapping the second page takes the first one with it. -/
theorem unmap_from_one_frees_used_table :
    pagingVirtualToPhysical neighbourSpace.mem smallRoot.val 0x400123 = 0x70123 ∧
      LosesFirstPage (unmapPageCounting physicalAllocator (fun _ => 1) neighbourSpace 0x401000 smallRoot.val).2 :=
  ⟨first_page_mapped, late_loses_page _ (by decide)⟩

end LunaOS.EmptinessScan
