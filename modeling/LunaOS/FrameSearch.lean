import LunaOS.BitmapAllocator

/-! Which free pages the physical allocator can find. The bitmap holds eight pages a
byte, and the search over pages stops at the number of bytes: what is free above it is
never handed out, and a free page 0 makes a request look refused. -/
namespace LunaOS.FrameSearch
open BitmapAllocator PageArithmetic ByteMemory BitVec

/-- The page has its bit set. -/
def Free (alloc : Allocator) (index : Nat) : Prop :=
  alloc.memoryBitmap.get (BitVec.ofNat 64 index) = true

/-- The page has a bit of its own in the bitmap. -/
def Described (alloc : Allocator) (index : Nat) : Prop := index < 8 * alloc.memoryBitmap.size.toNat

instance (alloc : Allocator) (index : Nat) : Decidable (Free alloc index) :=
  inferInstanceAs (Decidable (_ = true))

instance (alloc : Allocator) (index : Nat) : Decidable (Described alloc index) :=
  inferInstanceAs (Decidable (_ < _))

section Search
variable {alloc : Allocator}

theorem page_address (small : index < 2 ^ 52) : (BitVec.ofNat 64 index * pageSize).toNat = index * 4096 := by
  rw [toNat_mul, toNat_ofNat, pageSize_toNat]
  omega

theorem page_address_inj (first : index < 2 ^ 52) (second : other < 2 ^ 52)
    (same : BitVec.ofNat 64 index * pageSize = BitVec.ofNat 64 other * pageSize) : index = other := by
  have equal := congrArg BitVec.toNat same
  rw [page_address first, page_address second] at equal
  omega

/-- The search gives the lowest free page below the number of bytes, or 0. -/
theorem nextBlock_spec (ready : alloc.isInitialized = true) :
    (∃ index < alloc.memoryBitmap.size.toNat, Free alloc index ∧ (∀ lower < index, ¬ Free alloc lower) ∧
        nextBlock alloc = BitVec.ofNat 64 index * pageSize) ∨
      (∀ index < alloc.memoryBitmap.size.toNat, ¬ Free alloc index) ∧ nextBlock alloc = 0 := by
  unfold nextBlock
  rw [if_neg (by simp [ready])]
  cases found : (List.range alloc.memoryBitmap.size.toNat).find?
      fun index => alloc.memoryBitmap.get (BitVec.ofNat 64 index) with
  | none =>
    refine .inr ⟨?_, rfl⟩
    intro index inside
    simpa [Free] using List.find?_eq_none.mp found index (List.mem_range.mpr inside)
  | some index =>
    obtain ⟨set, inside, first⟩ := List.find?_range_eq_some.mp found
    refine .inl ⟨index, List.mem_range.mp inside, set, ?_, rfl⟩
    intro lower below
    simpa [Free] using first lower below

theorem allocatePage_free (ready : alloc.isInitialized = true) (small : index < 2 ^ 52)
    (found : nextBlock alloc = BitVec.ofNat 64 index * pageSize) (other : Nat) (bound : other < 2 ^ 64) :
    Free (allocatePage alloc).2 other ↔ Free alloc other ∧ other ≠ index := by
  have place : nextBlock alloc / pageSize = BitVec.ofNat 64 index := by
    rw [found, block_index index small]
  have same : BitVec.ofNat 64 other = BitVec.ofNat 64 index ↔ other = index := by
    rw [← toNat_inj, toNat_ofNat, toNat_ofNat]
    omega
  simp only [Free, allocatePage]
  rw [lockBlock_get ready, place]
  split
  · rename_i here
    simp [same.mp here]
  · rename_i away
    have differ : other ≠ index := fun equal => away (same.mpr equal)
    simp [differ]

theorem allocatePage_fixed (alloc : Allocator) : (allocatePage alloc).2.isInitialized = alloc.isInitialized ∧
      (allocatePage alloc).2.memoryBitmap.size = alloc.memoryBitmap.size :=
  ⟨(lockBlock_fixed ..).1, (lockBlock_fixed ..).2.1⟩

/-! ## One request -/

/-- A request that is refused, or seems to be, has left no page but page 0. -/
def Exhaustive (alloc : Allocator) : Prop :=
  (allocatePage alloc).1 = 0 → ∀ index, 1 ≤ index → Described alloc index → ¬ Free alloc index

/-- If a page is free then page 0 is not, and one is below the number of bytes. -/
def Findable (alloc : Allocator) : Prop :=
  (∃ index, 1 ≤ index ∧ Described alloc index ∧ Free alloc index) →
    ¬ Free alloc 0 ∧ ∃ index, index < alloc.memoryBitmap.size.toNat ∧ Free alloc index

theorem exhaustive_iff (ready : alloc.isInitialized = true) (bounded : alloc.memoryBitmap.size.toNat ≤ 2 ^ 49) :
    Exhaustive alloc ↔ Findable alloc := by
  constructor
  · rintro exhaustive ⟨index, pos, described, free⟩
    have granted : (allocatePage alloc).1 ≠ 0 := fun refused => exhaustive refused index pos described free
    rcases nextBlock_spec ready with ⟨found, inside, set, lowest, place⟩ | ⟨_, refused⟩
    · refine ⟨?_, found, inside, set⟩
      intro zero
      apply granted
      have first : found = 0 := by
        by_contra above
        exact lowest 0 (Nat.pos_of_ne_zero above) zero
      rw [allocatePage, place, first]
      rfl
    · exact absurd refused granted
  · intro findable refused index pos described free
    obtain ⟨clear, found, inside, set⟩ := findable ⟨index, pos, described, free⟩
    rcases nextBlock_spec ready with ⟨lowest, below, here, _, place⟩ | ⟨none, _⟩
    · have zero : lowest = 0 := by
        apply page_address_inj (by omega) (by omega)
        rw [← place]
        exact refused
      rw [zero] at here
      exact clear here
    · exact none found inside set

/-! ## Repeated requests -/

/-- The allocator after some requests. -/
def afterRequests (alloc : Allocator) : Nat → Allocator
  | 0 => alloc
  | requests + 1 => afterRequests (allocatePage alloc).2 requests

/-- Some request hands the page out. -/
def HandedOut (alloc : Allocator) (index : Nat) : Prop :=
  ∃ requests, (allocatePage (afterRequests alloc requests)).1 = BitVec.ofNat 64 index * pageSize

/-- By induction over the pages that may be taken before: each request takes the lowest. -/
theorem handedOut_of_free (lower distance : Nat) (near : index < lower + distance)
    (ready : alloc.isInitialized = true) (bounded : alloc.memoryBitmap.size.toNat ≤ 2 ^ 49)
    (inside : index < alloc.memoryBitmap.size.toNat) (free : Free alloc index)
    (cleared : ∀ other < lower, ¬ Free alloc other) : HandedOut alloc index := by
  induction distance generalizing alloc lower with
  | zero => exact absurd free (cleared index near)
  | succ distance ih =>
    rcases nextBlock_spec ready with ⟨found, below, set, lowest, place⟩ | ⟨none, _⟩
    · by_cases here : found = index
      · exact ⟨0, by rw [← here]; exact place⟩
      · have before : found < index := by
          by_contra above
          exact lowest index (by omega) free
        have reached : lower ≤ found := by
          by_contra above
          exact cleared found (by omega) set
        have taken := allocatePage_free ready (show found < 2 ^ 52 by omega) place
        obtain ⟨still, same⟩ := allocatePage_fixed alloc
        obtain ⟨requests, handed⟩ : HandedOut (allocatePage alloc).2 index := by
          apply ih (found + 1) (by omega) (still.trans ready) (by rw [same]; exact bounded)
            (by rw [same]; exact inside) ((taken index (by omega)).mpr ⟨free, Ne.symm here⟩)
          intro other under set
          obtain ⟨old, away⟩ := (taken other (by omega)).mp set
          exact lowest other (by omega) old
        exact ⟨requests + 1, handed⟩
    · exact absurd free (none index inside)

theorem afterRequests_fixed (alloc : Allocator) (requests : Nat) :
    (afterRequests alloc requests).isInitialized = alloc.isInitialized ∧
      (afterRequests alloc requests).memoryBitmap.size = alloc.memoryBitmap.size := by
  induction requests generalizing alloc with
  | zero => exact ⟨rfl, rfl⟩
  | succ requests ih =>
    obtain ⟨ready, size⟩ := ih (allocatePage alloc).2
    obtain ⟨still, same⟩ := allocatePage_fixed alloc
    exact ⟨ready.trans still, size.trans same⟩

/-- Nothing at or above the number of bytes is ever handed out, but for page 0. -/
theorem handedOut_below (ready : alloc.isInitialized = true)
    (bounded : alloc.memoryBitmap.size.toNat ≤ 2 ^ 49) (small : index < 2 ^ 52)
    (handed : HandedOut alloc index) : index = 0 ∨ index < alloc.memoryBitmap.size.toNat := by
  obtain ⟨requests, result⟩ := handed
  obtain ⟨still, same⟩ := afterRequests_fixed alloc requests
  rcases nextBlock_spec (still.trans ready) with ⟨found, below, _, _, place⟩ | ⟨_, refused⟩
  · rw [same] at below
    have equal : found = index := page_address_inj (by omega) small (place.symm.trans result)
    exact .inr (equal ▸ below)
  · exact .inl (page_address_inj small (by decide) (result.symm.trans refused))

end Search

/-- A request fails only for want of pages exactly when a free page 0 or pages above the
number of bytes are not all that hides the others, and repeated requests hand out every
free page exactly when none is above it. -/
theorem search_complete_iff (memmap : List MmapEntry) (alloc : Allocator)
    (ready : alloc.isInitialized = true) (size : alloc.memoryBitmap.size = bitmapSize memmap) :
    (Exhaustive alloc ↔ Findable alloc) ∧
      ((∀ index, 1 ≤ index → Described alloc index → Free alloc index → HandedOut alloc index) ↔
        ∀ index, alloc.memoryBitmap.size.toNat ≤ index → Described alloc index → ¬ Free alloc index) := by
  have bounded : alloc.memoryBitmap.size.toNat ≤ 2 ^ 49 := size ▸ bitmapSize_le memmap
  refine ⟨exhaustive_iff ready bounded, ?_⟩
  unfold Described
  constructor
  · intro all index above described free
    rcases handedOut_below ready bounded (by omega) (all index (by omega) described free) with zero | below
    · omega
    · omega
  · intro none index pos described free
    have inside : index < alloc.memoryBitmap.size.toNat := by
      by_contra above
      exact none index (by omega) described free
    exact handedOut_of_free 0 (index + 1) (by omega) ready bounded inside free
      (fun _ below => absurd below (Nat.not_lt_zero _))

/-- A bitmap of one byte in which the pages of `free` are set. -/
def oneByte (free : Byte) : Allocator := ⟨0, 0, 0, true, ⟨0, fun offset => if offset = 0 then free else 0, 1⟩⟩

/-- Eight pages of memory, all in use. -/
theorem search_complete_iff_full : Exhaustive (oneByte 0) := by
  refine (search_complete_iff [⟨0, 0x8000, 1⟩] (oneByte 0) rfl (by decide)).1.mpr ?_
  rintro ⟨index, pos, described, free⟩
  have none : ∀ page < 8, ¬ Free (oneByte 0) page := by decide
  exact absurd free (none index described)

/-- The last page of eight is free, and the request is refused. -/
theorem last_page_not_found :
    Free (oneByte 0x80) 7 ∧ Described (oneByte 0x80) 7 ∧ (allocatePage (oneByte 0x80)).1 = 0 ∧
      ¬ Exhaustive (oneByte 0x80) ∧ ¬ HandedOut (oneByte 0x80) 7 := by
  have refused : (allocatePage (oneByte 0x80)).1 = 0 := by decide
  have free : Free (oneByte 0x80) 7 := by decide
  refine ⟨free, by decide, refused, fun all => all refused 7 (by decide) (by decide) free, ?_⟩
  intro handed
  exact absurd (handedOut_below rfl (by decide) (by decide) handed) (by decide)

end LunaOS.FrameSearch
