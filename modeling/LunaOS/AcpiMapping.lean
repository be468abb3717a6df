import LunaOS.MadtParsing
import LunaOS.PageRecycling
import LunaOS.PagingInitialize
import LunaOS.RangeGrants
import LunaOS.UserMemory

/-! `acpiMapSDT` (`system/acpi/acpi.cpp`). A table is mapped into a fresh range of
the kernel, after its length was read through a page mapped for that purpose. The
loop counts pages but steps by bytes, so one page is mapped for every 4096. -/
namespace LunaOS.AcpiMapping
open BitVec Option
open ByteMemory PageArithmetic PageTables PageTableTree PageMapping PageUnmapping FrameExclusivity
  PageTranslation PageRecycling UserspaceAllocator UserSpace UserMemory PagingInitialize RangeAllocator
  RangePartition RangeGrants Tiling MadtParsing
open BitmapAllocator (physicalAllocator)

/-- Physical memory with its frames, and `virtualAddressRangeAllocator`. -/
structure Machine (σ : Type) where
  physical : Physical σ
  ranges : List AddressRange

/-- The bytes as the processor sees them in a space. -/
def seen (mem : Memory) (pml4Addr : Addr) : Memory := fun virt => mem ((resolve mem pml4Addr virt).getD 0)

/-- `sdtHeader->length`; `none` is a page fault. -/
def readLength (mem : Memory) (pml4Addr sdtHeader : Addr) : Option (BitVec 32) :=
  if (List.range 4).all fun i => (resolve mem pml4Addr (sdtHeader + 4 + BitVec.ofNat 64 i)).isSome then
    some (headerLength (seen mem pml4Addr) sdtHeader)
  else none

section Model
variable {σ : Type} (alloc : FrameAllocator σ) (pml4Addr : Addr)

/-- `acpiGetUnmappedSDTLength`, in the current space. -/
def acpiGetUnmappedSDTLength (machine : Machine σ) (sdtAddr : Addr) : Option (BitVec 32 × Machine σ) :=
  let (temporaryPage, ranges) := allocateRange machine.ranges 1
  if temporaryPage = 0 then some (0, { machine with ranges := ranges })
  else
    let st := pagingMapPageInSpace alloc machine.physical temporaryPage (alignPageDown sdtAddr) pml4Addr
      pagingDefaultFlags false
    let sdtHeader := temporaryPage + (sdtAddr - alignPageDown sdtAddr)
    match readLength st.mem pml4Addr sdtHeader with
    | none => none
    | some sdtLength =>
      let st := (pagingUnmapPageInSpace alloc st temporaryPage pml4Addr).2
      some (sdtLength, ⟨st, freeRange ranges temporaryPage⟩)

/-- The pages from the one the table begins in to the one it ends in. -/
def rangePages (sdtPhysAddr : Addr) (length : BitVec 32) : BitVec 32 :=
  let rangeStart := alignPageDown sdtPhysAddr
  let rangeEnd := alignPageUp (sdtPhysAddr + length.setWidth 64)
  ((rangeEnd - rangeStart) / pageSize).setWidth 32

/-- `acpiMapSDT`. The loop `for (page = 0; page < rangePages; page += PAGE_SIZE)`
is that of `pagingMapMemoryInTable` with the number of pages as the size. -/
def acpiMapSDT (machine : Machine σ) (sdtPhysAddr : Addr) : Option (Addr × Machine σ) :=
  if sdtPhysAddr = 0 then some (0, machine)
  else
    match acpiGetUnmappedSDTLength alloc pml4Addr machine sdtPhysAddr with
    | none => none
    | some (length, machine) =>
      if length = 0 then some (0, machine)
      else
        let rangeStart := alignPageDown sdtPhysAddr
        let pages := (rangePages sdtPhysAddr length).setWidth 64
        let (sdtVirtualAddr, ranges) := allocateRange machine.ranges pages
        if sdtVirtualAddr = 0 then some (0, { machine with ranges := ranges })
        else
          match pagingMapMemoryInTable alloc machine.physical sdtVirtualAddr rangeStart pages pml4Addr
            pagingDefaultFlags false with
          | none => none
          | some st =>
            let headerOffset := sdtPhysAddr - rangeStart
            some (sdtVirtualAddr + headerOffset, ⟨st, ranges⟩)

end Model

/-! ## What it is for -/

section Purpose
variable {σ : Type}

/-- The table is mapped, every byte of it. -/
def Whole (alloc : FrameAllocator σ) (pml4Addr : Addr) (machine : Machine σ) (sdt : Addr) : Prop :=
  ∃ header after, acpiMapSDT alloc pml4Addr machine sdt = some (header, after) ∧ header ≠ 0 ∧
    ∀ i < (headerLength machine.physical.mem sdt).toNat,
      resolve after.physical.mem pml4Addr (header + BitVec.ofNat 64 i) = some (sdt + BitVec.ofNat 64 i)

/-- The tables of the space are a tree of held frames, the ranges tile kernel
addresses, and no page of a free range is mapped. -/
structure Ready (alloc : LawfulAllocator σ) (root : Frame) (low high : Nat) (machine : Machine σ) : Prop where
  kept : Kept alloc root machine.physical
  tiled : Tiled low high machine.ranges
  kernel : 0xffff800000000000 ≤ low
  clear : ∀ range ∈ machine.ranges, ∀ point, Free range point →
    resolve machine.physical.mem root.val (BitVec.ofNat 64 point) = none

/-- The frames for tables are there and cover what they find. -/
def Drawn (alloc : FrameAllocator σ) (root : Frame) (st : Physical σ) (virt : Addr) : Prop :=
  MapDraws alloc st virt root.val pagingDefaultFlags false
    fun mem entry frame => frame ≠ 0 ∧ PageRecycling.Covers mem entry frame

def mapFree (alloc : FrameAllocator σ) (pml4Addr : Addr) (st : Physical σ) (page : Addr × Addr) : Physical σ :=
  pagingMapPageInSpace alloc st page.1 page.2 pml4Addr pagingDefaultFlags false

def DrawnRun (alloc : FrameAllocator σ) (root : Frame) : Physical σ → List (Addr × Addr) → Prop
  | _, [] => True
  | st, page :: rest => Drawn alloc root st page.1 ∧ DrawnRun alloc root (mapFree alloc root.val st page) rest

end Purpose

/-! ## Maps of free pages -/

section Spaces
variable {σ : Type} {alloc : LawfulAllocator σ} {root : Frame}

theorem mapFree_leaves (reserve : LowReserve alloc) (kept : Kept alloc root st) (page : Addr × Addr)
    (drawn : Drawn alloc root st page.1) : Kept alloc root (mapFree alloc root.val st page) ∧
      (∀ virt, leaf (mapFree alloc root.val st page).mem root (tablePath virt) (ptKey virt) =
        if pageKey page.1 = pageKey virt then
          (leaf st.mem root (tablePath virt) (ptKey virt)).or (some (entryFor page.2))
        else leaf st.mem root (tablePath virt) (ptKey virt)) ∧
      ∀ address, (∀ table, Table (mapFree alloc root.val st page).mem root table →
          4096 ≤ (address - table.val).toNat) → (mapFree alloc root.val st page).mem address = st.mem address := by
  obtain ⟨maps, held⟩ := map_maps (held_supports reserve) kept.held kept.tree paging_plain drawn page.2
  refine ⟨⟨maps.tree, held⟩, ?_, maps.outside⟩
  intro virt
  have leaves := maps.leaves (tablePath virt) (ptKey virt) rfl
  simp only [same_page_iff] at leaves
  exact leaves

/-- Free pages, each in a place of its own, are mapped and nothing else changes. -/
theorem mapFree_run (reserve : LowReserve alloc) (kept : Kept alloc root st) (drawn : DrawnRun alloc root st pages)
    (free : ∀ page ∈ pages, leaf st.mem root (tablePath page.1) (ptKey page.1) = none)
    (distinct : pages.Pairwise fun first second => pageKey first.1 ≠ pageKey second.1) :
    Kept alloc root (pages.foldl (mapFree alloc root.val) st) ∧
      (∀ virt, (∀ page ∈ pages, pageKey page.1 ≠ pageKey virt) →
        leaf (pages.foldl (mapFree alloc root.val) st).mem root (tablePath virt)
          (ptKey virt) = leaf st.mem root (tablePath virt) (ptKey virt)) ∧
      ∀ page ∈ pages, leaf (pages.foldl (mapFree alloc root.val) st).mem root
        (tablePath page.1) (ptKey page.1) = some (entryFor page.2) := by
  induction pages generalizing st with
  | nil => exact ⟨kept, fun _ _ => rfl, fun _ member => absurd member List.not_mem_nil⟩
  | cons page rest ih =>
    obtain ⟨mapped, leaves, _⟩ := mapFree_leaves reserve kept page drawn.1
    obtain ⟨others, distinct⟩ := List.pairwise_cons.mp distinct
    have later : ∀ other ∈ rest, leaf (mapFree alloc root.val st page).mem root
        (tablePath other.1) (ptKey other.1) = none := by
      intro other member
      rw [leaves, if_neg (others other member), free other (List.mem_cons_of_mem _ member)]
    obtain ⟨last, beside, shown⟩ := ih mapped drawn.2 later distinct
    refine ⟨last, ?_, ?_⟩
    · intro virt away
      rw [List.foldl_cons, beside virt fun other member => away other (List.mem_cons_of_mem _ member), leaves,
        if_neg (away page List.mem_cons_self)]
    · refine List.forall_mem_cons.mpr ⟨?_, shown⟩
      rw [List.foldl_cons, beside page.1 fun next member => (others next member).symm, leaves, if_pos rfl,
        free page List.mem_cons_self, none_or]

theorem leaf_of_resolve (tree : TableTree mem root) (accepted : canonical virt = true)
    (missing : resolve mem root.val virt = none) : leaf mem root (tablePath virt) (ptKey virt) = none := by
  rw [resolve_eq tree, if_pos accepted] at missing
  exact map_eq_none_iff.mp missing

theorem kernel_canonical (kernel : 0xffff800000000000 ≤ virt.toNat) : canonical virt = true :=
  (canonical_iff virt).mpr (.inr kernel)

/-- An address in the page of another. -/
theorem in_page {virt : Addr} (kernel : 0xffff800000000000 ≤ virt.toNat) (page : virt.toNat % 4096 = 0)
    (small : x < 4096) :
    canonical (virt + BitVec.ofNat 64 x) = true ∧ tablePath (virt + BitVec.ofNat 64 x) = tablePath virt ∧
      ptKey (virt + BitVec.ofNat 64 x) = ptKey virt ∧
      offsetExclude (virt + BitVec.ofNat 64 x) = BitVec.ofNat 64 x := by
  have place : (virt + BitVec.ofNat 64 x).toNat = virt.toNat + x := by
    rw [toNat_add, toNat_ofNat]
    omega
  have accepted : canonical (virt + BitVec.ofNat 64 x) = true := kernel_canonical (by omega)
  have same : pageKey (virt + BitVec.ofNat 64 x) = pageKey virt := by
    rw [canonical_page_iff accepted (kernel_canonical kernel), place]
    omega
  obtain ⟨path, key⟩ := (pageKey_eq_iff _ _).mp same
  refine ⟨accepted, path, key, ?_⟩
  rw [offsetExclude_eq, place]
  congr 1
  omega

/-- The bytes of a mapped page, and of one that is not. -/
theorem resolve_in_page {virt phys : Addr} (tree : TableTree mem root)
    (shown : leaf mem root (tablePath virt) (ptKey virt) = some (entryFor phys))
    (kernel : 0xffff800000000000 ≤ virt.toNat) (page : virt.toNat % 4096 = 0) (frame : phys.toNat % 4096 = 0)
    (wide : phys.toNat < 2 ^ 60) (small : x < 4096) :
    resolve mem root.val (virt + BitVec.ofNat 64 x) = some (phys + BitVec.ofNat 64 x) := by
  obtain ⟨accepted, path, key, offset⟩ := in_page kernel page small
  rw [resolve_eq tree, if_pos accepted, path, key, shown, map_some, entryFor_address frame wide, offset]

theorem missing_in_page {virt : Addr} (tree : TableTree mem root)
    (missing : leaf mem root (tablePath virt) (ptKey virt) = none) (kernel : 0xffff800000000000 ≤ virt.toNat)
    (page : virt.toNat % 4096 = 0) (small : x < 4096) : resolve mem root.val (virt + BitVec.ofNat 64 x) = none := by
  obtain ⟨accepted, path, key, _⟩ := in_page kernel page small
  rw [resolve_eq tree, if_pos accepted, path, key, missing, map_none]

end Spaces

/-! ## Reading the length -/

section Length
variable {σ : Type} {alloc : LawfulAllocator σ} {root : Frame} {machine : Machine σ} {low high : Nat}

theorem Ready.leaf_free (ready : Ready alloc root low high machine) {range : AddressRange}
    (member : range ∈ machine.ranges) {virt : Addr} (free : Free range virt.toNat) :
    0xffff800000000000 ≤ virt.toNat ∧ leaf machine.physical.mem root (tablePath virt) (ptKey virt) = none := by
  have kernel := ready.kernel
  have inside := (tiled_inside ready.tiled member).1
  have above : range.base.toNat ≤ virt.toNat := free.2.1
  have missing := ready.clear range member virt.toNat free
  rw [ofNat_toNat, setWidth_eq] at missing
  exact ⟨by omega, leaf_of_resolve ready.kept.tree (kernel_canonical (by omega)) missing⟩

/-- A page of a range that was given is free and not mapped. -/
theorem Ready.given_free (ready : Ready alloc root low high machine)
    (given : (allocateRange machine.ranges pages).1 = base) (met : base ≠ 0) {virt : Addr}
    (asked : Asked base pages virt.toNat) :
    0xffff800000000000 ≤ virt.toNat ∧ leaf machine.physical.mem root (tablePath virt) (ptKey virt) = none := by
  obtain ⟨_, _, _, free⟩ := allocated_free ready.tiled given met
  obtain ⟨range, member, here⟩ := free virt.toNat asked
  exact ready.leaf_free member here

/-- After the page for the length was mapped, read and given back, the machine is as ready as before. -/
theorem Ready.returned (ready : Ready alloc root low high machine) (reserve : LowReserve alloc)
    (given : allocateRange machine.ranges 1 = (temporaryPage, ranges)) (met : temporaryPage ≠ 0)
    (drawn : Drawn alloc root machine.physical temporaryPage) (phys : Addr) : Ready alloc root low high
      ⟨(pagingUnmapPageInSpace alloc
        (mapFree alloc root.val machine.physical (temporaryPage, phys)) temporaryPage root.val).2,
        freeRange ranges temporaryPage⟩ := by
  obtain ⟨mapped, leaves, _⟩ := mapFree_leaves reserve ready.kept (temporaryPage, phys) drawn
  have unmaps := (unmap_unmaps mapped.tree mapped.held temporaryPage).1
  obtain ⟨tiled, free⟩ := returned_free ready.tiled (by decide) given met
  refine ⟨⟨unmaps.tree, unmaps.held⟩, tiled, ready.kernel, ?_⟩
  intro range member point here
  obtain ⟨old, listed, before⟩ := free range member point here
  have missing := ready.clear old listed point before
  rw [resolve_eq ready.kept.tree] at missing
  rw [resolve_eq unmaps.tree, unmaps.leaves _ _ rfl]
  split
  · rename_i accepted
    rw [if_pos accepted] at missing
    split
    · rfl
    · rename_i other
      rw [leaves, if_neg fun own => other ((same_page_iff _ _).mpr own)]
      exact missing
  · rfl

theorem load32_congr {first second : Memory} {base other : Addr}
    (same : ∀ i < 4, first (base + BitVec.ofNat 64 i) = second (other + BitVec.ofNat 64 i)) :
    load32 first base = load32 second other := by
  have start := same 0 (by decide)
  rw [BitVec.add_zero, BitVec.add_zero] at start
  unfold load32
  rw [start]
  exact congrArg (· ++ second other) (congrArg₂ (· ++ ·) (congrArg₂ (· ++ ·) (same 3 (by decide)) (same 2 (by decide)))
    (same 1 (by decide)))

theorem sub_alignPageDown (address : Addr) :
    address - alignPageDown address = BitVec.ofNat 64 (address.toNat % 4096) := by
  have down := alignPageDown_toNat address
  apply eq_of_toNat_eq
  rw [toNat_sub, toNat_ofNat, down]
  omega

theorem add_ofNat_add (base : Addr) (x y : Nat) :
    base + BitVec.ofNat 64 x + BitVec.ofNat 64 y = base + BitVec.ofNat 64 (x + y) := by
  rw [BitVec.add_assoc, ofNat_add]

theorem alignPageDown_add (address : Addr) :
    alignPageDown address + BitVec.ofNat 64 (address.toNat % 4096) = address := by
  rw [← sub_alignPageDown, BitVec.add_comm, BitVec.sub_add_cancel]

/-- Where the table's page shows, the length read is the table's. -/
theorem readLength_inside {mem after : Memory} {sdt temporaryPage : Addr}
    (page : ∀ x < 4096, resolve after root.val (temporaryPage + BitVec.ofNat 64 x) =
      some (alignPageDown sdt + BitVec.ofNat 64 x))
    (same : ∀ x < 4096, after (alignPageDown sdt + BitVec.ofNat 64 x) = mem (alignPageDown sdt + BitVec.ofNat 64 x))
    (inside : sdt.toNat % 4096 + 8 ≤ 4096) :
    readLength after root.val (temporaryPage + (sdt - alignPageDown sdt)) = some (headerLength mem sdt) := by
  have four : (4 : Addr) = BitVec.ofNat 64 4 := rfl
  have place : ∀ i < 4, resolve after root.val
      (temporaryPage + (sdt - alignPageDown sdt) + 4 + BitVec.ofNat 64 i) = some (sdt + 4 + BitVec.ofNat 64 i) := by
    intro i small
    rw [sub_alignPageDown, four, add_ofNat_add, add_ofNat_add, page _ (by omega), ← add_ofNat_add, ← add_ofNat_add,
      alignPageDown_add]
  have reads : (List.range 4).all (fun i => (resolve after root.val
      (temporaryPage + (sdt - alignPageDown sdt) + 4 + BitVec.ofNat 64 i)).isSome) = true := by
    rw [List.all_eq_true]
    intro i member
    rw [place i (List.mem_range.mp member)]
    rfl
  rw [readLength, if_pos reads]
  refine congrArg some (load32_congr fun i small => ?_)
  have byte := same (sdt.toNat % 4096 + 4 + i) (by omega)
  rw [← add_ofNat_add, ← add_ofNat_add, alignPageDown_add, ← four] at byte
  rw [seen, place i small, getD_some, byte]

/-- A length that goes beyond the page is not read. -/
theorem readLength_beyond {after : Memory} {sdt temporaryPage : Addr}
    (behind : ∀ x < 4096, resolve after root.val (temporaryPage + pageSize + BitVec.ofNat 64 x) = none)
    (beyond : 4096 < sdt.toNat % 4096 + 8) :
    readLength after root.val (temporaryPage + (sdt - alignPageDown sdt)) = none := by
  have four : (4 : Addr) = BitVec.ofNat 64 4 := rfl
  have fault : resolve after root.val (temporaryPage + (sdt - alignPageDown sdt) + 4 + BitVec.ofNat 64 3) = none := by
    have missing := behind (sdt.toNat % 4096 + 4 + 3 - 4096) (by omega)
    rwa [show pageSize = BitVec.ofNat 64 4096 from rfl, add_ofNat_add, Nat.add_sub_cancel' (by omega),
      ← add_ofNat_add, ← add_ofNat_add, ← sub_alignPageDown, ← four] at missing
  rw [readLength, if_neg]
  rw [List.all_eq_true]
  intro reads
  have last := reads 3 (by decide)
  rw [fault] at last
  cases last

/-- The page of the table is none of the allocator's. -/
def Foreign (alloc : LawfulAllocator σ) (sdt : Addr) : Prop :=
  ∀ frames, alloc.sound frames → ¬ alloc.held frames (alignPageDown sdt)

theorem alignPageDown_page (address : Addr) : (alignPageDown address).toNat % 4096 = 0 := by
  rw [alignPageDown_toNat]
  exact Nat.mul_mod_left _ _

theorem foreign_outside (foreign : Foreign alloc sdt) (held : TablesHeld alloc root st) {x : Nat}
    (small : x < 4096) (table : Frame) (reached : Table st.mem root table) :
    4096 ≤ (alignPageDown sdt + BitVec.ofNat 64 x - table.val).toNat := by
  have differ : table ≠ ⟨alignPageDown sdt, alignPageDown_page sdt⟩ := by
    rintro rfl
    exact foreign _ held.sound (held.held _ reached)
  exact frame_outside differ small

/-- The call in both cases: the length lies in one page with the header, or the page behind is missing. -/
theorem length_returned (ready : Ready alloc root low high machine) (reserve : LowReserve alloc)
    (foreign : Foreign alloc sdt) (bound : sdt.toNat < 2 ^ 52) (met : (allocateRange machine.ranges 1).1 ≠ 0)
    (drawn : Drawn alloc root machine.physical (allocateRange machine.ranges 1).1)
    (inside : sdt.toNat % 4096 + 8 ≤ 4096) : ∃ after, acpiGetUnmappedSDTLength alloc root.val machine sdt =
        some (headerLength machine.physical.mem sdt, after) ∧ Ready alloc root low high after := by
  cases given : allocateRange machine.ranges 1 with
  | mk temporaryPage ranges =>
    rw [given] at met drawn
    obtain ⟨_, _, page, _⟩ := allocated_free ready.tiled (congrArg Prod.fst given) met
    obtain ⟨kernel, free⟩ := ready.given_free (congrArg Prod.fst given) met
      (show Asked temporaryPage 1 temporaryPage.toNat from ⟨Nat.le_refl _, Nat.lt_add_of_pos_right (by decide)⟩)
    obtain ⟨mapped, leaves, outside⟩ := mapFree_leaves reserve ready.kept (temporaryPage, alignPageDown sdt) drawn
    have shown := leaves temporaryPage
    rw [if_pos rfl, free, none_or] at shown
    have wide : (alignPageDown sdt).toNat < 2 ^ 60 := by
      rw [alignPageDown_toNat]
      omega
    have bytes : ∀ x < 4096, resolve _ root.val (temporaryPage + BitVec.ofNat 64 x) = _ := fun x small =>
      resolve_in_page mapped.tree shown kernel page (alignPageDown_page sdt) wide small
    have same := fun x (small : x < 4096) =>
      outside (alignPageDown sdt + BitVec.ofNat 64 x) (foreign_outside foreign mapped.held small)
    have read := readLength_inside bytes same inside
    refine ⟨_, ?_, ready.returned reserve given met drawn (alignPageDown sdt)⟩
    simp only [acpiGetUnmappedSDTLength, given, if_neg met]
    simp only [mapFree] at read
    rw [read]
    rfl

theorem length_faults (ready : Ready alloc root low high machine) (reserve : LowReserve alloc)
    (met : (allocateRange machine.ranges 1).1 ≠ 0)
    (drawn : Drawn alloc root machine.physical (allocateRange machine.ranges 1).1)
    (behind : resolve machine.physical.mem root.val ((allocateRange machine.ranges 1).1 + pageSize) = none)
    (beyond : 4096 < sdt.toNat % 4096 + 8) : acpiGetUnmappedSDTLength alloc root.val machine sdt = none := by
  cases given : allocateRange machine.ranges 1 with
  | mk temporaryPage ranges =>
    rw [given] at met drawn behind
    obtain ⟨above, fits, page, _⟩ := allocated_free ready.tiled (congrArg Prod.fst given) met
    obtain ⟨mapped, leaves, _⟩ := mapFree_leaves reserve ready.kept (temporaryPage, alignPageDown sdt) drawn
    have kernel := ready.kernel
    have top := ready.tiled.top
    rw [show (1 : BitVec 64).toNat = 1 from rfl] at fits
    simp only at above fits page
    have next : (temporaryPage + pageSize).toNat = temporaryPage.toNat + 4096 := by
      rw [toNat_add, pageSize_toNat]
      omega
    have there : canonical (temporaryPage + pageSize) = true := kernel_canonical (by omega)
    have other : pageKey temporaryPage ≠ pageKey (temporaryPage + pageSize) := by
      intro same
      have equal := (canonical_page_iff (kernel_canonical (by omega)) there).mp same
      omega
    have free := leaves (temporaryPage + pageSize)
    rw [if_neg other, leaf_of_resolve ready.kept.tree there behind] at free
    have missing : ∀ x < 4096, resolve _ root.val (temporaryPage + pageSize + BitVec.ofNat 64 x) = none :=
      fun x small => missing_in_page mapped.tree free (by omega) (by omega) small
    have read := readLength_beyond missing beyond
    simp only [acpiGetUnmappedSDTLength, given, if_neg met]
    simp only [mapFree] at read
    rw [read]

end Length

/-! ## The range -/

section Mapping
variable {σ : Type} {alloc : LawfulAllocator σ} {root : Frame} {machine : Machine σ} {low high : Nat}

theorem rangePages_toNat {sdt : Addr} {length : BitVec 32} (bound : sdt.toNat + length.toNat ≤ 2 ^ 52) :
    (rangePages sdt length).toNat = (sdt.toNat % 4096 + length.toNat + 4095) / 4096 := by
  have finish : (sdt + length.setWidth 64).toNat = sdt.toNat + length.toNat := by
    rw [toNat_add, toNat_setWidth]
    omega
  have up := alignPageUp_toNat (show (sdt + length.setWidth 64).toNat + 4095 < 2 ^ 64 by omega)
  have down := alignPageDown_toNat sdt
  simp only [rangePages, toNat_setWidth, toNat_udiv, toNat_sub, up, down, pageSize_toNat]
  omega

/-- The pages the loop maps. -/
def turns (pages : BitVec 32) : Nat := (pages.toNat + 4095) / 4096

theorem mapSDT_returns (nonzero : sdt ≠ 0) (filled : length ≠ 0)
    (read : acpiGetUnmappedSDTLength alloc root.val machine sdt = some (length, middle))
    (given : allocateRange middle.ranges ((rangePages sdt length).setWidth 64) = (base, ranges)) (met : base ≠ 0) :
    acpiMapSDT alloc root.val machine sdt = some (base + (sdt - alignPageDown sdt),
        ⟨(stretch base (alignPageDown sdt) 0 (turns (rangePages sdt length))).foldl
          (mapFree alloc root.val) middle.physical, ranges⟩) := by
  have size : ((rangePages sdt length).setWidth 64).toNat = (rangePages sdt length).toNat := by
    rw [toNat_setWidth]
    omega
  have loop : pagingMapMemoryInTable alloc middle.physical base (alignPageDown sdt)
      ((rangePages sdt length).setWidth 64) root.val pagingDefaultFlags false = _ :=
    pagingMapMemoryInTable_stretch (turns (rangePages sdt length)) (by unfold turns; omega)
      (by unfold turns; omega) (by unfold turns; omega)
  simp only [acpiMapSDT, if_neg nonzero, read, if_neg filled, given, if_neg met, loop]
  rfl

/-- Of a range that was given, the first pages are mapped and the others are not. -/
theorem stretch_maps (ready : Ready alloc root low high machine) (reserve : LowReserve alloc)
    (given : (allocateRange machine.ranges pages).1 = base) (met : base ≠ 0) {phys : Addr}
    (fewer : count ≤ pages.toNat) (drawn : DrawnRun alloc root machine.physical (stretch base phys 0 count)) :
    TableTree ((stretch base phys 0 count).foldl (mapFree alloc root.val) machine.physical).mem root ∧
      ∀ i < pages.toNat, 0xffff800000000000 ≤ (base + BitVec.ofNat 64 (i * 4096)).toNat ∧
        (base + BitVec.ofNat 64 (i * 4096)).toNat % 4096 = 0 ∧
        leaf ((stretch base phys 0 count).foldl (mapFree alloc root.val) machine.physical).mem
          root (tablePath (base + BitVec.ofNat 64 (i * 4096))) (ptKey (base + BitVec.ofNat 64 (i * 4096))) =
          if i < count then some (entryFor (phys + BitVec.ofNat 64 (i * 4096))) else none := by
  obtain ⟨_, ends, page, _⟩ := allocated_free ready.tiled given met
  have top := ready.tiled.top
  have place : ∀ i < pages.toNat, (base + BitVec.ofNat 64 (i * 4096)).toNat = base.toNat + i * 4096 := by
    intro i inside
    rw [toNat_add, toNat_ofNat]
    omega
  have free : ∀ i < pages.toNat, 0xffff800000000000 ≤ (base + BitVec.ofNat 64 (i * 4096)).toNat ∧
      leaf machine.physical.mem root (tablePath (base + BitVec.ofNat 64 (i * 4096)))
        (ptKey (base + BitVec.ofNat 64 (i * 4096))) = none := by
    intro i inside
    refine ready.given_free given met ⟨?_, ?_⟩ <;> rw [place i inside] <;> omega
  have differ : ∀ i < pages.toNat, ∀ j < pages.toNat, i ≠ j →
      pageKey (base + BitVec.ofNat 64 (i * 4096)) ≠ pageKey (base + BitVec.ofNat 64 (j * 4096)) := by
    intro i first j second apart same
    have equal := (canonical_page_iff (kernel_canonical (free i first).1) (kernel_canonical (free j second).1)).mp same
    rw [place i first, place j second] at equal
    omega
  have listed : ∀ page ∈ stretch base phys 0 count, ∃ i < count,
      page = (base + BitVec.ofNat 64 (i * 4096), phys + BitVec.ofNat 64 (i * 4096)) := by
    intro page member
    obtain ⟨i, inside, rfl⟩ := List.mem_map.mp member
    exact ⟨i, by simpa using inside, rfl⟩
  have unmapped : ∀ page ∈ stretch base phys 0 count,
      leaf machine.physical.mem root (tablePath page.1) (ptKey page.1) = none := by
    intro page member
    obtain ⟨i, inside, rfl⟩ := listed page member
    exact (free i (by omega)).2
  have distinct : (stretch base phys 0 count).Pairwise fun first second => pageKey first.1 ≠ pageKey second.1 := by
    refine List.pairwise_map.mpr ((List.pairwise_lt_range' 1).imp_of_mem ?_)
    intro i j first second order
    simp only [List.mem_range'_1] at first second
    exact differ i (by omega) j (by omega) (by omega)
  obtain ⟨kept, beside, shown⟩ := mapFree_run reserve ready.kept drawn unmapped distinct
  refine ⟨kept.tree, fun i inside => ⟨(free i inside).1, by rw [place i inside]; omega, ?_⟩⟩
  split
  · rename_i early
    exact shown (_, _) (List.mem_map.mpr ⟨i, by simpa using early, rfl⟩)
  · rename_i late
    rw [beside _ ?_, (free i inside).2]
    intro page member
    obtain ⟨j, early, rfl⟩ := listed page member
    exact differ j (by omega) i inside (by omega)

/-- The allocations of both virtual ranges succeed, and the page tables get their frames. -/
structure Served (alloc : LawfulAllocator σ) (root : Frame) (machine : Machine σ) (sdt : Addr) : Prop where
  page : (allocateRange machine.ranges 1).1 ≠ 0
  tables : Drawn alloc root machine.physical (allocateRange machine.ranges 1).1
  range : ∀ length middle, acpiGetUnmappedSDTLength alloc root.val machine sdt = some (length, middle) →
    (allocateRange middle.ranges ((rangePages sdt length).setWidth 64)).1 ≠ 0 ∧ DrawnRun alloc root middle.physical
        (stretch (allocateRange middle.ranges ((rangePages sdt length).setWidth 64)).1 (alignPageDown sdt) 0
          (turns (rangePages sdt length)))

/-- With the length read, the table is whole when it ends in the page it begins in. -/
theorem read_whole_iff (ready : Ready alloc root low high middle) (reserve : LowReserve alloc)
    (nonzero : sdt ≠ 0) (filled : 0 < (headerLength machine.physical.mem sdt).toNat)
    (bound : sdt.toNat + (headerLength machine.physical.mem sdt).toNat ≤ 2 ^ 52)
    (served : Served alloc root machine sdt) (read : acpiGetUnmappedSDTLength alloc root.val machine sdt =
      some (headerLength machine.physical.mem sdt, middle)) : Whole alloc root.val machine sdt ↔
      sdt.toNat % 4096 + (headerLength machine.physical.mem sdt).toNat ≤ 4096 := by
  obtain ⟨met, drawn⟩ := served.range _ _ read
  unfold Whole
  generalize headerLength machine.physical.mem sdt = length at *
  have count := rangePages_toNat bound
  cases given : allocateRange middle.ranges ((rangePages sdt length).setWidth 64) with
  | mk base ranges =>
    rw [given] at met drawn
    have size : ((rangePages sdt length).setWidth 64).toNat = (rangePages sdt length).toNat := by
      rw [toNat_setWidth]
      omega
    obtain ⟨tree, leaves⟩ := stretch_maps ready reserve (congrArg Prod.fst given) met
      (by rw [size]; unfold turns; omega) drawn
    have returns := mapSDT_returns nonzero (fun zero => by simp [zero] at filled) read given met
    constructor
    · rintro ⟨header, after, returned, _, whole⟩
      rw [returns] at returned
      cases returned
      by_contra longer
      -- The last byte is in the last page of the range, which the loop does not come to.
      have last := whole (length.toNat - 1) (by omega)
      obtain ⟨kernel, page, missing⟩ := leaves ((rangePages sdt length).toNat - 1) (by omega)
      rw [if_neg (by unfold turns; omega)] at missing
      have place : sdt.toNat % 4096 + (length.toNat - 1) = ((rangePages sdt length).toNat - 1) * 4096 +
          (sdt.toNat % 4096 + (length.toNat - 1)) % 4096 := by omega
      rw [sub_alignPageDown, add_ofNat_add, place, ← add_ofNat_add,
        missing_in_page tree missing kernel page (Nat.mod_lt _ (by decide))] at last
      cases last
    · intro fits
      obtain ⟨kernel, page, shown⟩ := leaves 0 (by omega)
      rw [if_pos (by unfold turns; omega)] at shown
      have wide : (alignPageDown sdt).toNat < 2 ^ 60 := by
        rw [alignPageDown_toNat]
        omega
      simp only [Nat.zero_mul, BitVec.add_zero] at kernel page shown
      refine ⟨_, _, returns, ?_, ?_⟩
      · intro zero
        have value := congrArg BitVec.toNat zero
        rw [sub_alignPageDown, toNat_add, toNat_ofNat] at value
        change _ = 0 at value
        omega
      · intro i inside
        have byte := resolve_in_page tree shown kernel page (alignPageDown_page sdt) wide
          (show sdt.toNat % 4096 + i < 4096 by omega)
        rw [sub_alignPageDown, add_ofNat_add, byte, ← add_ofNat_add, alignPageDown_add]

end Mapping

/-- When both ranges are given and the tables get their frames, the whole table is
mapped exactly when it and the length in its header end in the page they begin in. -/
theorem mapSDT_whole_iff {σ : Type} (alloc : LawfulAllocator σ) (reserve : LowReserve alloc) (root : Frame)
    (low high : Nat) (machine : Machine σ) (ready : Ready alloc root low high machine) (sdt : Addr)
    (nonzero : sdt ≠ 0) (foreign : Foreign alloc sdt) (filled : 0 < (headerLength machine.physical.mem sdt).toNat)
    (bound : sdt.toNat + (headerLength machine.physical.mem sdt).toNat ≤ 2 ^ 52)
    (served : Served alloc root machine sdt) (behind : sdt.toNat % 4096 + 8 ≤ 4096 ∨
      resolve machine.physical.mem root.val ((allocateRange machine.ranges 1).1 + pageSize) = none) :
    Whole alloc root.val machine sdt ↔
      sdt.toNat % 4096 + max 8 (headerLength machine.physical.mem sdt).toNat ≤ 4096 := by
  by_cases inside : sdt.toNat % 4096 + 8 ≤ 4096
  · have below : sdt.toNat < 2 ^ 52 := by omega
    obtain ⟨middle, read, later⟩ := length_returned ready reserve foreign below served.page served.tables inside
    rw [read_whole_iff later reserve nonzero filled bound served read]
    omega
  · have fault : acpiGetUnmappedSDTLength alloc root.val machine sdt = none :=
      length_faults ready reserve served.page served.tables (behind.resolve_left inside) (by omega)
    constructor
    · rintro ⟨header, after, returned, _⟩
      simp only [acpiMapSDT, if_neg nonzero, fault] at returned
      cases returned
    · omega

/-! ## A table of 36 bytes -/

/-- The small machine with the length of a table at an address, and one page before the ranges mapped. -/
def tableMachine (sdt : Addr) : Machine BitmapAllocator.Allocator where
  physical := mapFree physicalAllocator smallRoot.val
    ⟨clearFrame (store8 (fun _ => 0) (sdt + 4) 36) smallRoot, smallSpace.frames⟩ (0xFFFF800150000000, 0x71000)
  ranges := (boot 0xFFFF800150100000 0xFFFF8100A0100000).ranges

theorem table_ready : Ready smallLaws smallRoot (0xFFFF800150100000 : Addr).toNat (0xFFFF8100A0100000 : Addr).toNat
    (tableMachine 0x70010) := by
  have start := represents_cleared (store8 (fun _ => 0) (0x70010 + 4) 36) smallRoot
  have root : smallLaws.held smallSpace.frames smallRoot.val := small_held.held smallRoot ⟨[], by decide, rfl⟩
  have before : Kept smallLaws smallRoot ⟨clearFrame (store8 (fun _ => 0) (0x70010 + 4) 36) smallRoot, _⟩ :=
    ⟨start.tree, cleared_held _ small_held.sound root⟩
  have drawn : Drawn physicalAllocator smallRoot
      ⟨clearFrame (store8 (fun _ => 0) (0x70010 + 4) 36) smallRoot, smallSpace.frames⟩ 0xFFFF800150000000 := by
    simp only [Drawn, MapDraws, DrawsAt, PageRecycling.Covers]
    decide +kernel
  obtain ⟨kept, leaves, _⟩ := mapFree_leaves small_low before (0xFFFF800150000000, 0x71000) drawn
  have sound : Sound (0xFFFF800150100000 : Addr).toNat (0xFFFF8100A0100000 : Addr).toNat
      (boot 0xFFFF800150100000 0xFFFF8100A0100000) := boot_sound (by decide) (by decide) (by decide)
  refine ⟨kept, sound.tiled, by decide, ?_⟩
  rintro range member point ⟨_, covers⟩
  obtain ⟨above, below⟩ := tiled_inside sound.tiled member
  have low : 0xFFFF800150100000 ≤ point := Nat.le_trans above covers.1
  have top : point < 0xFFFF8100A0100000 := Nat.lt_of_lt_of_le covers.2 below
  have place : (BitVec.ofNat 64 point).toNat = point := by
    rw [toNat_ofNat]
    omega
  have accepted : canonical (BitVec.ofNat 64 point) = true := kernel_canonical (by omega)
  have other : pageKey (0xFFFF800150000000 : Addr) ≠ pageKey (BitVec.ofNat 64 point) := by
    intro same
    have equal := (canonical_page_iff (by decide) accepted).mp same
    rw [place, show (0xFFFF800150000000 : Addr).toNat = 0xFFFF800150000000 from rfl] at equal
    omega
  have missing := leaves (BitVec.ofNat 64 point)
  rw [if_neg other] at missing
  have tree : TableTree (tableMachine 0x70010).physical.mem smallRoot := kept.tree
  rw [resolve_eq tree, if_pos accepted]
  exact map_eq_none_iff.mpr (missing.trans (start.leaves _))

theorem table_returns : (acpiGetUnmappedSDTLength physicalAllocator smallRoot.val (tableMachine 0x70010)
    0x70010).isSome = true := by
  decide +kernel

def tableRead : BitVec 32 × Machine BitmapAllocator.Allocator :=
  (acpiGetUnmappedSDTLength physicalAllocator smallRoot.val (tableMachine 0x70010) 0x70010).get
    table_returns

theorem table_served : Served smallLaws smallRoot (tableMachine 0x70010) 0x70010 := by
  refine ⟨by decide, ?_, ?_⟩
  · simp only [Drawn, MapDraws, DrawsAt, PageRecycling.Covers]
    decide +kernel
  · intro length middle returned
    have same : tableRead = (length, middle) := get_of_eq_some table_returns returned
    obtain rfl : tableRead.1 = length := congrArg Prod.fst same
    obtain rfl : tableRead.2 = middle := congrArg Prod.snd same
    have base : (allocateRange tableRead.2.ranges ((rangePages 0x70010 tableRead.1).setWidth 64)).1 =
        0xFFFF800150100000 := by decide +kernel
    have pages : turns (rangePages 0x70010 tableRead.1) = 1 := by decide +kernel
    rw [base, pages]
    refine ⟨by decide, ?_, trivial⟩
    simp only [Drawn, MapDraws, DrawsAt, PageRecycling.Covers]
    decide +kernel

theorem mapSDT_whole_iff_inside : Whole physicalAllocator smallRoot.val (tableMachine 0x70010) 0x70010 := by
  have length : headerLength (tableMachine 0x70010).physical.mem 0x70010 = 36 := by decide +kernel
  have foreign : Foreign smallLaws 0x70010 := by
    rintro frames _ ⟨pooled, _⟩
    exact absurd (small_pool pooled) (by decide)
  refine (mapSDT_whole_iff smallLaws small_low smallRoot _ _ _ table_ready 0x70010 (by decide) foreign ?_ ?_
    table_served (.inl (by decide))).mpr ?_ <;> rw [length] <;> decide

/-- A table of 36 bytes from 0x70ff0 on: the byte at 0x71000 is not mapped. -/
theorem table_crossing : headerLength (tableMachine 0x70ff0).physical.mem 0x70ff0 = 36 ∧
    (acpiMapSDT physicalAllocator smallRoot.val (tableMachine 0x70ff0) 0x70ff0).map (fun result =>
      (result.1, resolve result.2.physical.mem smallRoot.val (result.1 + 15),
        resolve result.2.physical.mem smallRoot.val (result.1 + 16))) =
      some (0xFFFF800150100ff0, some 0x70fff, none) := by
  decide +kernel

end LunaOS.AcpiMapping
