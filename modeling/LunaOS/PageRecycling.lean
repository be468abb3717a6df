import LunaOS.PageTranslation
import LunaOS.PageUnmapping

/-! Mapping over recycled frames. The unmap leaves the address of a released
table in its entry, and the next map of the path puts its new frame over it with
a bitwise or. In any run of maps, unmaps and foreign traffic where every new
frame covers the bits it finds, a map does exactly what it should. -/
namespace LunaOS.PageRecycling
open ByteMemory PageTables PointerTree PageTableTree PageMapping PageUnmapping FrameExclusivity PageTranslation
open BitmapAllocator (physicalAllocator)

/-- What can happen to a space and to the memory around it. The last three are
other users of the allocator. -/
inductive Traffic where
  | map (request : MapRequest)
  | unmap (virt : Addr)
  | allocatePage
  | freePage (frame : Addr)
  | store (address : Addr) (byte : Byte)

section Runs
variable {σ : Type}

def perform (alloc : FrameAllocator σ) (root : Frame) (st : Physical σ) : Traffic → Physical σ
  | .map request => mapRequest alloc root st request
  | .unmap virt => (pagingUnmapPageInSpace alloc st virt root.val).2
  | .allocatePage => { st with frames := (alloc.allocatePage st.frames).2 }
  | .freePage frame => { st with frames := alloc.freePage st.frames frame }
  | .store address byte => { st with mem := store8 st.mem address byte }

def performAll (alloc : FrameAllocator σ) (root : Frame) (st : Physical σ) (traffic : List Traffic) :
    Physical σ := traffic.foldl (perform alloc root) st

/-- The new frame keeps every address bit that is still in the entry. -/
def Covers (_ : Memory) (entry : BitVec 64) (frame : Addr) : Prop := addressExclude entry ||| frame = frame

/-- Every frame the call draws is one, and covers what it finds. -/
def Fits (alloc : FrameAllocator σ) (root : Frame) (st : Physical σ) (request : MapRequest) : Prop :=
  MapDraws alloc st request.virt root.val request.flags request.override
    fun mem entry frame => frame ≠ 0 ∧ Covers mem entry frame

/-- Other users give back and write frames of their own. -/
def Fair (alloc : LawfulAllocator σ) (root : Frame) (st : Physical σ) : Traffic → Prop
  | .freePage frame => alloc.held st.frames frame ∧ ∀ table, Table st.mem root table → table.val ≠ frame
  | .store address _ => ∀ table, Table st.mem root table → 4096 ≤ (address - table.val).toNat
  | .map request => Fits alloc root st request
  | .unmap _ => True
  | .allocatePage => True

def FairRun (alloc : LawfulAllocator σ) (root : Frame) : Physical σ → List Traffic → Prop
  | _, [] => True
  | st, event :: rest => Fair alloc root st event ∧ FairRun alloc root (perform alloc root st event) rest

/-- The tables form a tree, in frames the allocator counts as held. -/
structure Kept (alloc : LawfulAllocator σ) (root : Frame) (st : Physical σ) : Prop where
  tree : TableTree st.mem root
  held : TablesHeld alloc root st

variable {alloc : LawfulAllocator σ} {root : Frame} {st : Physical σ}

theorem held_supports (low : LowReserve alloc) : Supports alloc root target (TablesHeld alloc root)
      fun mem entry frame => frame ≠ 0 ∧ Covers mem entry frame where
  suited _ _ _ _ held _ _ _ _ drawn := held_suits low held drawn.1 drawn.2
  entered _ _ _ _ held _ _ enters source := held_entered held enters source
  rests _ _ held frames paths _ := held_rests held frames (table_iff_of_paths paths)

theorem kept_map (low : LowReserve alloc) (kept : Kept alloc root st) (request : MapRequest)
    (fits : Fits alloc root st request) :
    Maps st.mem (mapRequest alloc root st request).mem root request.virt request.entry request.override ∧
      Kept alloc root (mapRequest alloc root st request) := by
  obtain ⟨maps, held⟩ := map_maps (held_supports low) kept.held kept.tree request.plain fits request.phys.val
  exact ⟨maps, maps.tree, held⟩

theorem entryAt_store (outside : 4096 ≤ (address - table.val).toNat) (key : Key) :
    entryAt (store8 mem address byte) table key = entryAt mem table key := by
  rw [entryAt, entryAt, store8]
  refine load64_write ?_
  intro offset inside
  by_contra zero
  have slot := key_offset key
  have here : address = slotOf table key + BitVec.ofNat 64 offset := by
    generalize slotOf table key + BitVec.ofNat 64 offset = place at zero
    bv_omega
  rw [here, slotOf, BitVec.add_assoc, add_sub_self, BitVec.toNat_add, slot, BitVec.toNat_ofNat] at outside
  omega

/-- Each event keeps the tables a tree of held frames. -/
theorem kept_perform (low : LowReserve alloc) (kept : Kept alloc root st)
    (fair : Fair alloc root st event) : Kept alloc root (perform alloc root st event) := by
  obtain ⟨sound, held⟩ := kept.held
  cases event with
  | map request => exact (kept_map low kept request fair).2
  | unmap virt =>
    have unmaps := (unmap_unmaps kept.tree kept.held virt).1
    exact ⟨unmaps.tree, unmaps.held⟩
  | allocatePage =>
    refine ⟨kept.tree, alloc.drawn_sound _ sound, ?_⟩
    intro table reached
    by_cases null : (alloc.allocatePage st.frames).1 = 0
    · exact (alloc.exhausted _ sound null _).mpr (held table reached)
    · exact (alloc.taken _ sound null _).mpr (.inl (held table reached))
  | freePage frame =>
    obtain ⟨owned, foreign⟩ := fair
    refine ⟨kept.tree, alloc.freed_sound _ _ sound owned, ?_⟩
    intro table reached
    exact (alloc.freed _ _ sound owned _).mpr ⟨held table reached, foreign table reached⟩
  | store address byte =>
    have same : ∀ table, Table st.mem root table → ∀ key,
        entryAt (store8 st.mem address byte) table key = entryAt st.mem table key :=
      fun table reached => entryAt_store (fair table reached)
    obtain ⟨tree, tables, _⟩ := tree_congr same kept.tree
    exact ⟨tree, held_rests kept.held rfl tables⟩

theorem kept_run (low : LowReserve alloc) (kept : Kept alloc root st)
    (fair : FairRun alloc root st traffic) : Kept alloc root (performAll alloc root st traffic) := by
  induction traffic generalizing st with
  | nil => exact kept
  | cons event rest ih => exact ih (kept_perform low kept fair.1) fair.2

/-- At each level that creates a table, the entry points at the frame drawn. -/
def PointsAt (alloc : FrameAllocator σ) (st : Physical σ) (pagetable : Addr) (index flags : BitVec 64)
    (override : Bool) : Prop :=
  checkFlag (readEntry st.mem pagetable index) pagetablePresent = false →
    addressExclude (readEntry (enterTable alloc st pagetable index flags override).2.mem pagetable
      index) = (alloc.allocatePage st.frames).1

/-- Every entry a call creates points exactly at its new table. -/
def PointsExactly (alloc : FrameAllocator σ) (root : Frame) (st : Physical σ) (request : MapRequest) : Prop :=
  let pml4 := applyDirectmap root.val
  let first := enterTable alloc st pml4 (pml4Indexer request.virt) request.flags.pml4Flags request.override
  let second := enterTable alloc first.2 first.1 (pdptIndexer request.virt) request.flags.pdptFlags
    request.override
  PointsAt alloc st pml4 (pml4Indexer request.virt) request.flags.pml4Flags request.override ∧
    PointsAt alloc first.2 first.1 (pdptIndexer request.virt) request.flags.pdptFlags request.override ∧
    PointsAt alloc second.2 second.1 (pdIndexer request.virt) request.flags.pdFlags request.override

/-- What a map of a free page should do. -/
structure MapsRight (alloc : FrameAllocator σ) (root : Frame) (st : Physical σ) (request : MapRequest) :
    Prop where
  own : ∀ virt, pageKey virt = pageKey request.virt →
    pagingVirtualToPhysical (mapRequest alloc root st request).mem root.val virt =
      request.phys.val + offsetExclude virt
  others : ∀ virt, pageKey virt ≠ pageKey request.virt →
    pagingVirtualToPhysical (mapRequest alloc root st request).mem root.val virt =
      pagingVirtualToPhysical st.mem root.val virt
  writes : ∀ address, (∀ table, Table (mapRequest alloc root st request).mem root table →
    4096 ≤ (address - table.val).toNat) →
    (mapRequest alloc root st request).mem address = st.mem address
  exact : PointsExactly alloc root st request

/-- A level points at its frame exactly when the frame covers the old entry. -/
theorem pointsAt_iff (plain : PlainFlags flags) (aligned : (alloc.allocatePage st.frames).1.toNat % 4096 = 0)
    (low : (alloc.allocatePage st.frames).1.toNat < 2 ^ 52) (pagetable index : Addr) :
    PointsAt alloc st pagetable index flags override ↔ DrawsAt alloc st pagetable index Covers := by
  refine forall_congr' fun absent => ?_
  have written : readEntry (enterTable alloc st pagetable index flags override).2.mem
      pagetable index = readEntry st.mem pagetable index ||| flags ||| (alloc.allocatePage st.frames).1 := by
    simp only [enterTable, absent, Bool.false_eq_true, if_false, removeDirectmap_applyDirectmap]
    exact load64_store64 ..
  have kept := addressExclude_frame ⟨_, aligned⟩ (Nat.lt_trans low (by decide))
  rw [written, addressExclude_or, addressExclude_or, plain.address, kept, Covers]
  rw [show addressExclude (readEntry st.mem pagetable index) ||| (0 : BitVec 64) =
    addressExclude (readEntry st.mem pagetable index) from BitVec.or_zero]

section Keeping
variable {alloc : FrameAllocator σ} {kept : σ → Prop}
  (draw : ∀ frames, kept frames → kept (alloc.allocatePage frames).2) (start : kept st.frames)
include draw start

/-- What every draw keeps of the frames, a level of a map keeps. -/
theorem enterTable_keeps (pagetable index flags : Addr) :
    kept (enterTable alloc st pagetable index flags override).2.frames := by
  simp only [enterTable]
  split
  · split <;> exact start
  · exact draw _ start

theorem pagingMapPageInSpace_keeps (virt phys pml4Addr : Addr) (flags : PagingFlags) :
    kept (pagingMapPageInSpace alloc st virt phys pml4Addr flags override).frames := by
  simp only [pagingMapPageInSpace]
  split <;>
    exact enterTable_keeps draw (enterTable_keeps draw (enterTable_keeps draw start _ _ _) _ _ _) _ _ _

end Keeping

theorem enterTable_sound (sound : alloc.sound st.frames) (pagetable index flags : Addr) :
    alloc.sound (enterTable alloc st pagetable index flags override).2.frames :=
  enterTable_keeps alloc.drawn_sound sound pagetable index flags

/-- Frames that are not null are aligned and low. -/
theorem drawn_low (low : LowReserve alloc) (sound : alloc.sound st.frames) :
    (alloc.allocatePage st.frames).1.toNat % 4096 = 0 ∧ (alloc.allocatePage st.frames).1.toNat < 2 ^ 52 := by
  by_cases null : (alloc.allocatePage st.frames).1 = 0
  · rw [null]
    decide
  · have reserve := (alloc.drawn _ sound null).1
    exact ⟨alloc.aligned _ reserve, low _ reserve⟩

theorem pointsExactly_iff (low : LowReserve alloc) (sound : alloc.sound st.frames)
    (request : MapRequest) : PointsExactly alloc root st request ↔
      MapDraws alloc st request.virt root.val request.flags request.override Covers := by
  have level : ∀ {st : Physical σ} {flags}, alloc.sound st.frames → PlainFlags flags →
      ∀ pagetable index, PointsAt alloc st pagetable index flags request.override ↔
        DrawsAt alloc st pagetable index Covers := by
    intro st flags sound plain pagetable index
    obtain ⟨aligned, small⟩ := drawn_low low sound
    exact pointsAt_iff plain aligned small pagetable index
  exact and_congr (level sound request.plain.pml4 _ _)
    (and_congr (level (enterTable_sound sound _ _ _) request.plain.pdpt _ _)
      (level (enterTable_sound (enterTable_sound sound _ _ _) _ _ _) request.plain.pd _ _))

theorem maps_right (low : LowReserve alloc) (kept : Kept alloc root st) (request : MapRequest)
    (free : leaf st.mem root (tablePath request.virt) (ptKey request.virt) = none) (fits : Fits alloc root st request)
    (covers : MapDraws alloc st request.virt root.val request.flags request.override
      Covers) : MapsRight alloc root st request := by
  obtain ⟨maps, kept'⟩ := kept_map low kept request fits
  refine ⟨?_, ?_, maps.outside, (pointsExactly_iff low kept.held.sound request).mpr covers⟩
  · intro virt own
    obtain ⟨path, last⟩ := (pageKey_eq_iff virt request.virt).mp own
    rw [walk_eq kept'.tree, maps.leaves _ _ rfl, if_pos ((same_page_iff virt request.virt).mpr own.symm), path, last,
      free]
    cases request.override <;> simp [located, request.entry_address]
  · intro virt other
    rw [walk_eq kept'.tree, walk_eq kept.tree, maps.leaves _ _ rfl,
      if_neg fun same => other ((same_page_iff virt request.virt).mp same).symm]

/-- In every state a fair run reaches, a map of a free page that draws frames does
exactly what it should if and only if each frame covers the entry it is put over. -/
theorem map_right_iff_covers (alloc : LawfulAllocator σ) (root : Frame) (low : LowReserve alloc)
    (mem : Memory) (frames : σ) (sound : alloc.sound frames) (held : alloc.held frames root.val)
    (traffic : List Traffic)
    (fair : FairRun alloc root ⟨clearFrame mem root, frames⟩ traffic) (request : MapRequest) :
    let st := performAll alloc root ⟨clearFrame mem root, frames⟩ traffic
    leaf st.mem root (tablePath request.virt) (ptKey request.virt) = none →
    (MapDraws alloc st request.virt root.val request.flags request.override
      fun _ _ frame => frame ≠ 0) →
    (MapsRight alloc root st request ↔
      MapDraws alloc st request.virt root.val request.flags request.override Covers) := by
  intro st free drawn
  have start : Kept alloc root ⟨clearFrame mem root, frames⟩ :=
    ⟨(represents_cleared mem root).tree, cleared_held mem sound held⟩
  have kept := kept_run low start fair
  constructor
  · intro right
    exact (pointsExactly_iff low kept.held.sound request).mp right.exact
  · intro covers
    refine maps_right low kept request free ?_ covers
    exact ⟨fun absent => ⟨drawn.1 absent, covers.1 absent⟩,
      fun absent => ⟨drawn.2.1 absent, covers.2.1 absent⟩, fun absent => ⟨drawn.2.2 absent, covers.2.2 absent⟩⟩

end Runs

/-! ## A small space -/

def firstMap : MapRequest := userPage 0x1000 0
def secondMap : MapRequest := userPage 0x400000 1
def thirdMap : MapRequest := userPage 0x400000 2

/-- Two pages are mapped in page tables of their own and the second is taken out. -/
def releasing : List Traffic := [.map firstMap, .map secondMap, .unmap 0x400000]

def released : Physical BitmapAllocator.Allocator :=
  performAll physicalAllocator smallRoot smallSpace releasing

theorem releasing_fair : FairRun smallLaws smallRoot smallSpace releasing := by
  have first : Fits physicalAllocator smallRoot smallSpace firstMap := by
    simp only [Fits, MapDraws, DrawsAt, Covers]
    decide +kernel
  have second : Fits physicalAllocator smallRoot
      (mapRequest physicalAllocator smallRoot smallSpace firstMap) secondMap := by
    simp only [Fits, MapDraws, DrawsAt, Covers]
    decide +kernel
  exact ⟨first, second, trivial, trivial⟩

/-- Mapped again at once, the page gets the frame it gave back. -/
theorem map_right_again : leaf released.mem smallRoot (tablePath 0x400000) (ptKey 0x400000) = none ∧
    MapsRight physicalAllocator smallRoot released thirdMap := by
  have state : leaf released.mem smallRoot (tablePath 0x400000) (ptKey 0x400000) = none ∧
      Fits physicalAllocator smallRoot released thirdMap := by
    simp only [Fits, MapDraws, DrawsAt, Covers]
    decide +kernel
  obtain ⟨free, first, second, third⟩ := state
  have held : smallLaws.held smallSpace.frames smallRoot.val := small_held.held smallRoot ⟨[], by decide, rfl⟩
  refine ⟨free, (map_right_iff_covers smallLaws smallRoot small_low (fun _ => 0) smallSpace.frames
    small_held.sound held releasing releasing_fair thirdMap free ?_).mpr ?_⟩
  · exact ⟨fun absent => (first absent).1, fun absent => (second absent).1, fun absent => (third absent).1⟩
  · exact ⟨fun absent => (first absent).2, fun absent => (second absent).2, fun absent => (third absent).2⟩

/-- When another user has drawn the released frame and one more, the next frame is
merged with the address of the released one, and the page has no translation. -/
theorem stale_bits_lose_mapping :
    let st := performAll physicalAllocator smallRoot released [.allocatePage, .allocatePage]
    let after := mapRequest physicalAllocator smallRoot st thirdMap
    leaf st.mem smallRoot (tablePath 0x400000) (ptKey 0x400000) = none ∧
      (BitmapAllocator.allocatePage st.frames).1 = 0x8000 ∧
      (descend (child after.mem) smallRoot (tablePath 0x400000)).map Subtype.val = some 0xe000 ∧
      pagingVirtualToPhysical after.mem smallRoot.val 0x400000 = 0 := by
  decide +kernel

end LunaOS.PageRecycling
