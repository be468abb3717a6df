import LunaOS.BuddyReleases

/-! The buddy allocator at the edges of its arguments: requests larger than the
region, whose sizes may wrap around, and blocks counted in units of more than one
byte, which the splitting does not know of. -/
namespace LunaOS.BuddyLimits
open BitVec
open Function ByteMemory BuddyAllocator BuddyHeaders BuddyInvariant BuddyCalls BuddyRuns BuddyReleases
  DyadicTiling

section Runs
variable {region : Region} {mem : Memory}

/-- The invariant of a run, with more blocks out than there are live pointers: at
the end of the addresses a release does nothing. -/
structure Guarded (region : Region) (state : State) (full : List (Addr × BitVec 64)) : Prop where
  kept : ∃ lists held, Kept region ⟨state.mem, full⟩ lists held
  live : state.live.Sublist full

theorem allocate_guarded (guarded : Guarded region state full) (bound : size.toNat + 18 ≤ 2 ^ 63)
    (acted : act region.alloc state (.allocate size) = some next) : ∃ full', Guarded region next full' := by
  obtain ⟨⟨lists, held, kept⟩, live⟩ := guarded
  obtain ⟨other, lists', held', found, kept'⟩ := allocate_kept kept bound
  simp only [act] at acted found
  cases acted
  cases found
  refine ⟨_, ⟨lists', held', kept'⟩, ?_⟩
  simp only
  split
  · exact live
  · exact live.cons_cons _

theorem store_guarded (guarded : Guarded region state full) (member : slot ∈ state.live)
    (inside : (address - slot.1).toNat < slot.2.toNat)
    (acted : act region.alloc state (.store address byte) = some next) : ∃ full', Guarded region next full' := by
  obtain ⟨⟨lists, held, kept⟩, live⟩ := guarded
  obtain ⟨other, lists', held', found, kept'⟩ : ∃ other lists' held',
      act region.alloc ⟨state.mem, full⟩ (.store address byte) = some other ∧ Kept region other lists' held' :=
    store_kept kept (live.subset member) inside
  cases acted
  cases found
  exact ⟨full, ⟨lists', held', kept'⟩, live⟩

/-- Where nothing is released, the memory stays and the pointer is no longer live. -/
theorem release_guarded (guarded : Guarded region state full)
    (wraps : region.base.toNat + 2 ^ region.order = 2 ^ 64) (member : (pointer, size) ∈ state.live)
    (acted : act region.alloc state (.deallocate pointer) = some next) : ∃ full', Guarded region next full' := by
  obtain ⟨⟨lists, held, kept⟩, live⟩ := guarded
  obtain ⟨block, rest, perm, rfl, _⟩ := live_block kept (live.subset member)
  have inside := (kept.shape.tiles.inside _ (held_mem (perm.mem_iff.mpr List.mem_cons_self))).1
  simp only [act, deallocate_refuses wraps inside] at acted
  cases acted
  exact ⟨full, ⟨lists, held, kept⟩, List.eraseP_sublist.trans live⟩

theorem run_guarded (run : Run region mem state) : ∃ full, Guarded region state full := by
  by_cases ends : region.base.toNat + 2 ^ region.order < 2 ^ 64
  · obtain ⟨lists, held, kept⟩ := run_kept ends run
    exact ⟨state.live, ⟨lists, held, kept⟩, List.Sublist.refl _⟩
  · have wraps : region.base.toNat + 2 ^ region.order = 2 ^ 64 := by
      have ends := region.ends
      omega
    induction run with
    | start => exact ⟨[], ⟨_, _, built_kept mem⟩, List.Sublist.refl _⟩
    | @step state action next _ allowed acted ih =>
      obtain ⟨full, guarded⟩ := ih
      cases action with
      | allocate size => exact allocate_guarded guarded allowed acted
      | deallocate pointer =>
        obtain ⟨size, member⟩ := allowed
        exact release_guarded guarded wraps member acted
      | store address byte =>
        obtain ⟨slot, member, inside⟩ := allowed
        exact store_guarded guarded member inside acted

end Runs

/-! ## Requests larger than the region -/

section Oversized
variable {region : Region} {mem : Memory}

theorem align_past (past : 2 ^ 63 ≤ (v - 1).toNat) : alignToPowerOfTwo v = 0 := by
  have size : (v - 1).toNat.size = 64 :=
    Nat.le_antisymm (Nat.size_le.mpr (v - 1).isLt) (Nat.lt_size.mpr past)
  apply eq_of_toNat_eq
  rw [align_toNat, size, Nat.mod_self]
  rfl

/-- Past half the addresses the order of a request comes out small. -/
theorem requiredOrder_past (past : 2 ^ 63 < size.toNat + 18) : requiredOrder region.alloc size ≤ 5 := by
  have sum : (size + headerSize).toNat = (size.toNat + 18) % 2 ^ 64 := toNat_add _ _
  by_cases wrapped : 2 ^ 64 < size.toNat + 18
  · have value : (size + headerSize).toNat = size.toNat + 18 - 2 ^ 64 := by omega
    have aligned : (alignToPowerOfTwo (size + headerSize)).toNat = _ := align_size (by omega) (by omega)
    have order : ((size + headerSize).toNat - 1).size ≤ 5 := Nat.size_le.mpr (by omega)
    rw [requiredOrder, show region.alloc.minBlockSize = 1 from rfl, findOrder_pow aligned (by omega)]
    exact order
  · have below : 2 ^ 63 ≤ (size + headerSize - 1).toNat := by
      rw [toNat_sub, sum, show (1 : BitVec 64).toNat = 1 from rfl]
      omega
    have zero : buddyallocatorFindOrder 0 1 = 0 := by decide
    rw [requiredOrder, align_past below, show region.alloc.minBlockSize = 1 from rfl, zero]
    exact Nat.zero_le 5

theorem findAvailable_above (above : region.order < required) : findAvailable region.alloc mem required = none := by
  have none : region.order + 1 - required = 0 := by omega
  rw [findAvailable, region.maxOrder, none]
  rfl

/-- Every available block is large enough for an order of five or less. -/
theorem findAvailable_small (shape : Shape region (region.view mem) lists held []) (small : required ≤ 5) :
    findAvailable region.alloc mem required = none ↔
      ∀ k ≤ region.order, linkedListIsEmpty mem (region.list k) = true := by
  constructor
  · intro missed k below
    rw [isEmpty_iff shape below]
    by_cases large : 5 ≤ k
    · exact findAvailable_none shape missed k (by omega) below
    · refine List.eq_nil_iff_forall_not_mem.mpr fun block member => large ?_
      exact shape.large _ (free_mem below member)
  · intro empty
    cases found : findAvailable region.alloc mem required with
    | none => rfl
    | some j =>
      obtain ⟨_, below, nonempty, _⟩ := findAvailable_some shape found
      exact absurd ((isEmpty_iff shape below).mp (empty j below)) nonempty

/-- A request is refused when no list has a block for it. -/
theorem allocate_refused_iff (shape : Shape region (region.view mem) lists held []) :
    allocate region.alloc mem size = (0, mem) ↔
      findAvailable region.alloc mem (requiredOrder region.alloc size) = none := by
  constructor
  · intro refused
    cases found : findAvailable region.alloc mem (requiredOrder region.alloc size) with
    | none => rfl
    | some j =>
      obtain ⟨_, below, nonempty, _⟩ := findAvailable_some shape found
      obtain ⟨block, rest, first⟩ := List.exists_cons_of_ne_nil nonempty
      have listed : block ∈ lists j := first ▸ List.mem_cons_self
      have forward : linkf mem (region.list j) = block := by
        rw [← (view_site (list_site below)).2.1, (shape.rings j below).first, first]
        rfl
      have pointer : block + headerSize = 0 := by
        have reply := congrArg Prod.fst refused
        simpa only [allocate, found, region.allocator_list, forward] using reply
      have room : 2 ^ 5 ≤ 2 ^ j := Nat.pow_le_pow_right (by decide) (shape.large _ (free_mem below listed))
      have inside := (shape.tiles.inside _ (free_mem below listed)).2
      have ends := region.ends
      simp only at inside
      have value := congrArg BitVec.toNat pointer
      rw [toNat_add, show headerSize.toNat = 18 from rfl, show (0 : BitVec 64).toNat = 0 from rfl] at value
      omega
  · intro missed
    simp only [allocate, missed]

end Oversized

/-- A request for more than the whole region is refused, and changes nothing,
exactly when its size and the header are at most half the addresses or nothing at
all is available. -/
theorem oversized_refused_iff (region : Region) (mem : Memory) (state : State) (size : BitVec 64)
    (run : Run region mem state) (large : 2 ^ region.order < size.toNat + 18) :
    allocate region.alloc state.mem size = (0, state.mem) ↔
      size.toNat + 18 ≤ 2 ^ 63 ∨ ∀ k ≤ region.order, linkedListIsEmpty state.mem (region.list k) = true := by
  obtain ⟨full, ⟨lists, held, kept⟩, _⟩ := run_guarded run
  rw [allocate_refused_iff kept.shape]
  by_cases bound : size.toNat + 18 ≤ 2 ^ 63
  · have fits := (requiredOrder_fits (rfl : region.alloc.minBlockSize = 1) bound).1
    have above : region.order < requiredOrder region.alloc size :=
      (Nat.pow_lt_pow_iff_right (by decide)).mp (Nat.lt_of_lt_of_le large fits)
    simp only [findAvailable_above above, bound, true_or]
  · rw [findAvailable_small kept.shape (requiredOrder_past (Nat.lt_of_not_le bound))]
    simp only [bound, false_or]

theorem oversized_refused_iff_pair :
    allocate pairRegion.alloc (built pairRegion fun _ => 0).mem 100 = (0, (built pairRegion fun _ => 0).mem) :=
  (oversized_refused_iff pairRegion (fun _ => 0) _ 100 .start (by decide)).mpr (.inl (by decide))

/-- Requests of 2^64 - 1 and of 2^63 bytes are granted from 64. -/
theorem wrapped_request_granted : Run pairRegion (fun _ => 0) (built pairRegion fun _ => 0) ∧
      (allocate pairRegion.alloc (built pairRegion fun _ => 0).mem 0xffffffffffffffff).1 = 0x4012 ∧
      (allocate pairRegion.alloc (built pairRegion fun _ => 0).mem 0x8000000000000000).1 = 0x4012 :=
  ⟨.start, by decide +kernel, by decide +kernel⟩

/-! ## Blocks counted in units -/

/-- A region with a `minBlockSize` of 2^`unit`; without the unit it is the part that the
orders of the allocator reach when they are taken for numbers of bytes. -/
structure UnitRegion extends Region where
  unit : Nat
  narrow : unit ≤ 7
  whole : 2 ^ (order + unit) ∣ base.toNat
  beside : avail.toNat + 888 ≤ base.toNat ∨ base.toNat + 2 ^ (order + unit) ≤ avail.toNat

section Units

def UnitRegion.alloc (region : UnitRegion) : Allocator :=
  construct region.avail region.base (BitVec.ofNat 64 (2 ^ (region.order + region.unit))) (BitVec.ofNat 8 (2 ^ region.unit))

/-- A block met on one of the available lists. -/
def Listed (alloc : Allocator) (mem : Memory) (block : Addr) : Prop :=
  ∃ k ≤ alloc.maxOrder, block ≠ alloc.list k ∧ ∃ steps, Nat.iterate (linkf mem) steps (alloc.list k) = block

structure Separate (region : UnitRegion) (state : State) : Prop where
  inside : ∀ slot ∈ state.live, region.base.toNat ≤ slot.1.toNat ∧
    slot.1.toNat + slot.2.toNat ≤ region.base.toNat + 2 ^ (region.order + region.unit)
  payloads : state.live.Pairwise fun first second => Apart first.1 first.2.toNat second.1 second.2.toNat
  headers : ∀ slot ∈ state.live, ∀ block, Listed region.alloc state.mem block →
    Apart slot.1 slot.2.toNat block headerSize.toNat

variable {region : UnitRegion} {mem : Memory}

theorem findOrder_unit (power : size.toNat = 2 ^ order) (narrow : unit ≤ 7) (low : unit ≤ order)
    (enough : order ≤ 64) : buddyallocatorFindOrder size (BitVec.ofNat 8 (2 ^ unit)) = order - unit := by
  have small : 2 ^ unit < 2 ^ 8 := Nat.pow_lt_pow_right (by decide) (by omega)
  exact findOrder_dyadic power (Nat.mod_eq_of_lt small) low enough

theorem UnitRegion.size_toNat :
    (BitVec.ofNat 64 (2 ^ (region.order + region.unit))).toNat = 2 ^ (region.order + region.unit) := by
  have high := region.high
  have narrow := region.narrow
  rw [toNat_ofNat, Nat.mod_eq_of_lt (Nat.pow_lt_pow_right (by decide) (by omega))]

/-- The same lists over the same base, with another unit. -/
def counting (alloc : Allocator) (minBlockSize : BitVec 8) (size : BitVec 64) : Allocator :=
  { alloc with minBlockSize := minBlockSize, size := size }

theorem UnitRegion.allocator_reach : region.alloc =
    counting region.toRegion.alloc region.alloc.minBlockSize region.alloc.size := by
  have low := region.low
  have high := region.high
  have narrow := region.narrow
  have top : region.alloc.maxOrder = region.toRegion.alloc.maxOrder := by
    rw [region.toRegion.maxOrder]
    exact (findOrder_unit region.size_toNat narrow (by omega) (by omega)).trans (Nat.add_sub_cancel ..)
  simp only [counting, ← top]
  rfl

theorem list_counting : (counting alloc minBlockSize size).list k = alloc.list k := rfl

theorem initLists_counting : initLists (counting alloc minBlockSize size) mem = initLists alloc mem :=
  rfl

theorem findAvailable_counting :
    findAvailable (counting alloc minBlockSize size) mem required = findAvailable alloc mem required :=
  rfl

/-- At the start the one available block is the region, which is on the topmost list. -/
theorem unit_start (above : required ≤ region.order) :
    findAvailable region.alloc (initLists region.alloc mem) required = some region.order ∧
      linkf (initLists region.alloc mem) (region.toRegion.list region.order) = region.base := by
  rw [region.allocator_reach, findAvailable_counting, initLists_counting]
  have shape : Shape region.toRegion _ _ [] [] := initLists_shape mem
  have first : update (fun _ => []) region.order [region.base] region.order = [region.base] :=
    update_self _ _ _
  refine ⟨?_, (pop_shape shape (Nat.le_refl _) first).1⟩
  cases found : findAvailable region.toRegion.alloc (initLists region.toRegion.alloc mem) required with
  | none =>
    have empty := findAvailable_none shape found _ above (Nat.le_refl _)
    exact absurd (first.symm.trans empty) (List.cons_ne_nil _ _)
  | some j =>
    obtain ⟨_, _, nonempty, _⟩ := findAvailable_some shape found
    by_contra other
    exact nonempty (update_of_ne (fun same => other (congrArg some same)) _ _)

theorem splitBlock_once : splitBlock alloc block j (j + 1) mem = putHalf alloc mem block j := by
  have done : splitBlock alloc block j j (putHalf alloc mem block j) = putHalf alloc mem block j := by
    cases j with
    | zero => rfl
    | succ j => rw [splitBlock, if_neg (Nat.lt_irrefl _)]
  rw [splitBlock, if_pos (Nat.lt_succ_self j), done]

/-- A request for half the region, with the header. -/
def UnitRegion.half (region : UnitRegion) : BitVec 64 := BitVec.ofNat 64 (2 ^ (region.order + region.unit - 1) - 18)

theorem UnitRegion.half_toNat (wide : 1 ≤ region.unit) :
    region.half.toNat + 18 = 2 ^ (region.order + region.unit - 1) ∧ region.half.toNat + 18 ≤ 2 ^ 63 := by
  have low := region.low
  have high := region.high
  have narrow := region.narrow
  have least : 2 ^ 5 ≤ 2 ^ (region.order + region.unit - 1) := Nat.pow_le_pow_right (by decide) (by omega)
  have most : 2 ^ (region.order + region.unit - 1) ≤ 2 ^ 63 := Nat.pow_le_pow_right (by decide) (by omega)
  have value : region.half.toNat = 2 ^ (region.order + region.unit - 1) - 18 := by
    rw [UnitRegion.half, toNat_ofNat, Nat.mod_eq_of_lt (by omega)]
  omega

theorem UnitRegion.half_order (wide : 1 ≤ region.unit) :
    requiredOrder region.alloc region.half = region.order - 1 := by
  have low := region.low
  have high := region.high
  have narrow := region.narrow
  obtain ⟨power, bound⟩ := region.half_toNat wide
  have sum : (region.half + headerSize).toNat = 2 ^ (region.order + region.unit - 1) := by
    rw [toNat_add, show headerSize.toNat = 18 from rfl, power, Nat.mod_eq_of_lt]
    omega
  have aligned := align_pow sum (by omega)
  have order : requiredOrder region.alloc region.half = region.order + region.unit - 1 - region.unit :=
    findOrder_unit aligned narrow (by omega) (by omega)
  rw [order]
  omega

theorem UnitRegion.list_reach (k : Nat) : region.alloc.list k = region.toRegion.list k := by
  rw [region.allocator_reach, list_counting, region.toRegion.allocator_list]

/-- The half is taken at the base, and the other half, a few units away, is made available. -/
theorem half_granted (mem : Memory) (wide : 1 ≤ region.unit) :
    ∃ after, allocate region.alloc (initLists region.alloc mem) region.half = (region.base + headerSize, after) ∧
      linkf after (region.alloc.list (region.order - 1)) = region.base + 1#64 <<< (region.order - 1) := by
  have low := region.toRegion.low
  obtain ⟨found, first⟩ : _ ∧ linkf (initLists region.alloc mem) _ = region.base :=
    unit_start (Nat.sub_le region.order 1)
  obtain ⟨j, order⟩ : ∃ j, region.order = j + 1 := ⟨region.order - 1, by omega⟩
  simp only [allocate, region.half_order wide, found, region.list_reach, first]
  simp only [order, Nat.add_sub_cancel, splitBlock_once]
  refine ⟨_, rfl, ?_⟩
  have head : region.toRegion.Site (region.toRegion.list j) := list_site (by omega)
  have base : region.toRegion.Site region.base := by
    have shape : Shape region.toRegion _ _ [] [] := initLists_shape mem
    refine shape.site (free_mem (Nat.le_refl _) ?_) rfl
    rw [update_self]
    exact List.mem_singleton_self _
  rw [← (view_site head).2.1, view_setKval base, view_setTag base]
  simp only [putHalf, region.list_reach]
  rw [view_setLinkf head]
  exact update_self _ _ _

/-- The second half as the allocator has it begins inside the first. -/
theorem UnitRegion.half_spans (wide : 1 ≤ region.unit) :
    2 ^ 4 ≤ 2 ^ (region.order - 1) ∧ 2 ^ (region.order - 1) < 2 ^ (region.order + region.unit - 1) ∧
      2 ^ 5 ≤ 2 ^ (region.order + region.unit - 1) ∧ region.base.toNat + 2 ^ (region.order + region.unit - 1) < 2 ^ 64 := by
  have low := region.low
  have high := region.high
  have narrow := region.narrow
  have short : region.order - 1 < region.order + region.unit - 1 := by omega
  have start := region.toRegion.low
  have ends : region.base.toNat + 2 ^ (region.order + region.unit) ≤ 2 ^ 64 :=
    step_le region.whole (Nat.pow_dvd_pow 2 (by omega)) region.base.isLt
  have half : 2 ^ (region.order + region.unit - 1) < 2 ^ (region.order + region.unit) :=
    Nat.pow_lt_pow_right (by decide) (by omega)
  refine ⟨Nat.pow_le_pow_right (by decide) (by omega), Nat.pow_lt_pow_right (by decide) short,
    Nat.pow_le_pow_right (by decide) (by omega), ?_⟩
  omega

/-- With units of more than a byte, the first half taken holds the header of the second. -/
theorem half_overlaps (mem : Memory) (wide : 1 ≤ region.unit) :
    ∃ state, RunOf region.alloc mem state ∧ ¬ Separate region state := by
  obtain ⟨after, granted, next⟩ := half_granted mem wide
  obtain ⟨power, bound⟩ := region.half_toNat wide
  obtain ⟨least, shorter, half, ends⟩ := region.half_spans wide
  have pointer : (region.base + headerSize).toNat = region.base.toNat + 18 := by
    rw [toNat_add, show headerSize.toNat = 18 from rfl]
    omega
  have second : (region.base + 1#64 <<< (region.order - 1)).toNat = region.base.toNat + 2 ^ (region.order - 1) := by
    rw [toNat_add, shift_toNat (Nat.le_trans (Nat.sub_le _ _) region.toRegion.high)]
    omega
  have met : region.base + headerSize ≠ 0 := by
    intro zero
    rw [zero] at pointer
    change 0 = _ at pointer
    omega
  have listed : Listed region.alloc after (region.base + 1#64 <<< (region.order - 1)) := by
    refine ⟨region.order - 1, ?_, ?_, 1, next⟩
    · rw [region.allocator_reach]
      exact Nat.le_trans (Nat.sub_le _ _) (Nat.le_of_eq region.toRegion.maxOrder.symm)
    · intro same
      have low := region.toRegion.low
      have high := region.toRegion.high
      have place : (region.toRegion.list (region.order - 1)).toNat = region.avail.toNat + _ :=
        region.toRegion.list_toNat (by omega)
      have outside : region.avail.toNat + 888 ≤ region.base.toNat ∨ _ ≤ region.avail.toNat := region.toRegion.apart
      have inside : 2 ^ (region.order - 1) < 2 ^ region.order :=
        Nat.pow_lt_pow_right (by decide) (by omega)
      rw [same, region.list_reach, place] at second
      change _ ∨ region.base.toNat + 2 ^ region.order ≤ _ at outside
      omega
  have request : Allowed ⟨initLists region.alloc mem, []⟩ (.allocate region.half) := bound
  refine ⟨⟨after, [(region.base + headerSize, region.half)]⟩, .step .start request ?_, ?_⟩
  · simp only [act, granted, if_neg met]
  · intro separate
    have apart := (separate.headers _ List.mem_cons_self _ listed).separate (by simp only; omega) (by decide)
    rw [show headerSize.toNat = 18 from rfl] at apart
    simp only [pointer, second] at apart
    omega

/-- With units of one byte all of the region is reached. -/
theorem allocator_one (one : region.unit = 0) : region.alloc = region.toRegion.alloc := by
  simp only [UnitRegion.alloc, Region.alloc, one]
  rfl

/-- The payload of a block, and what is inside another piece. -/
theorem payload_clear {region : Region} (kept : Kept region state lists held) (owned : block ∈ held)
    (member : piece ∈ pieces region lists held []) (separate : block.piece.Separate piece)
    (low : piece.start ≤ other.toNat) (high : other.toNat + count ≤ piece.start + 2 ^ piece.order) :
    Apart (entry block).1 (entry block).2.toNat other count := by
  have pointer : (entry block).1.toNat = _ := pointer_toNat kept.shape owned
  have fits : (entry block).2.toNat + 18 ≤ _ := kept.fits block owned
  have ends := region.ends
  have bounds := (kept.shape.tiles.inside _ (held_mem owned)).2
  have bounds' := (kept.shape.tiles.inside _ member).2
  rcases separate with before | after
  · simp only [Block.piece] at before
    exact apart_of_le_left (by omega) (by omega)
  · simp only [Block.piece] at after bounds
    exact apart_of_le_right (by omega) (by omega)

theorem listed_mem {region : Region} (kept : Kept region state lists held)
    (listed : Listed region.alloc state.mem node) : ∃ k ≤ region.order, node ∈ lists k := by
  obtain ⟨k, below, other, steps, reached⟩ := listed
  rw [region.maxOrder] at below
  have ring := (kept_partitioned kept).rings k below
  have member := ring.iterate_mem steps
  rw [region.allocator_list] at other reached
  rw [reached] at member
  exact ⟨k, below, (List.mem_cons.mp member).resolve_left other⟩

theorem guarded_separate (one : region.unit = 0) (guarded : Guarded region.toRegion state full) :
    Separate region state := by
  obtain ⟨⟨lists, held, kept⟩, live⟩ := guarded
  have order : region.order = region.order + region.unit := by omega
  have apart : (held.map Block.piece ++ freePieces region.toRegion lists).Pairwise Piece.Separate :=
    kept.shape.tiles.pairwise
  obtain ⟨blocks, _, across⟩ := List.pairwise_append.mp apart
  have owned : ∀ slot ∈ state.live, ∃ block ∈ held, entry block = slot := fun slot member =>
    List.mem_map.mp (kept.live ▸ live.subset member)
  constructor
  · intro slot member
    obtain ⟨block, inside, rfl⟩ := owned slot member
    have bounds : region.base.toNat ≤ block.start.toNat ∧ _ := kept.shape.tiles.inside _ (held_mem inside)
    have fits : (entry block).2.toNat + 18 ≤ _ := kept.fits block inside
    have pointer : (entry block).1.toNat = _ := pointer_toNat kept.shape inside
    rw [order] at bounds
    simp only [Block.piece] at bounds
    change _ ∧ _ ≤ region.base.toNat + _ at bounds
    omega
  · refine List.Pairwise.sublist live ?_
    rw [show full = held.map entry from kept.live, List.pairwise_map]
    refine (List.pairwise_map.mp blocks).imp_of_mem ?_
    intro first second inside inside' separate
    have fits := kept.fits second inside'
    have pointer : (entry second).1.toNat = _ := pointer_toNat kept.shape inside'
    apply payload_clear kept inside (held_mem inside') separate <;> simp only [Block.piece, entry] at pointer ⊢ <;>
      omega
  · intro slot member node listed
    obtain ⟨block, inside, rfl⟩ := owned slot member
    rw [allocator_one one] at listed
    obtain ⟨k, below, free⟩ := listed_mem kept listed
    have large : 2 ^ 5 ≤ 2 ^ k := Nat.pow_le_pow_right (by decide) (kept.shape.large _ (free_mem below free))
    refine payload_clear kept inside (free_mem below free) ?_ (Nat.le_refl _) (Nat.add_le_add_left ?_ _)
    · exact across _ (List.mem_map_of_mem inside) _ (mem_freePieces below free)
    · exact Nat.le_trans (by decide) large

end Units

/-- In every run the payloads are inside the region, apart from each other and from
the headers of the available blocks, exactly when the blocks are counted in bytes:
otherwise the orders count units and the splitting takes them for bytes. -/
theorem separate_iff (region : UnitRegion) (mem : Memory) :
    (∀ state, RunOf region.alloc mem state → Separate region state) ↔ region.unit = 0 := by
  constructor
  · intro separate
    by_contra wide
    obtain ⟨state, run, overlap⟩ := half_overlaps mem (Nat.pos_of_ne_zero wide)
    exact overlap (separate state run)
  · intro one state run
    rw [allocator_one one] at run
    obtain ⟨full, guarded⟩ := run_guarded run
    exact guarded_separate one guarded

theorem even_low : 5 ≤ 5 := Nat.le_refl 5

theorem even_high : 5 ≤ 47 := by decide

/-- Blocks of 64 bytes counted in units of two. -/
def evenRegion : UnitRegion where
  avail := 0x1000
  base := 0x4000
  order := 5
  low := even_low
  high := even_high
  aligned := (Nat.pow_dvd_pow 2 (by decide)).trans pairRegion.aligned
  object := pairRegion.object
  apart := by decide
  unit := 1
  narrow := by decide
  whole := pairRegion.aligned
  beside := pairRegion.apart

def evenGrant : Addr × Memory := allocate evenRegion.alloc (initLists evenRegion.alloc fun _ => 0) 14

/-- A request for 14 bytes is given 0x4012, and the header of the other half is put at 0x4010. -/
theorem even_halves_overlap : RunOf evenRegion.alloc (fun _ => 0) ⟨evenGrant.2, [(0x4012, 14)]⟩ ∧
      Listed evenRegion.alloc evenGrant.2 0x4010 ∧ ¬ Apart 0x4012 14 0x4010 headerSize.toNat := by
  have pointer : evenGrant.1 = 0x4012 := by decide +kernel
  have request : Allowed ⟨initLists evenRegion.alloc fun _ => 0, []⟩ (.allocate 14) := by
    unfold Allowed
    decide
  refine ⟨.step .start request ?_, ⟨4, by decide +kernel, by decide +kernel, 1, by decide +kernel⟩, ?_⟩
  · unfold evenGrant at pointer ⊢
    simp only [act, pointer]
    rfl
  · intro apart
    exact absurd (apart 0 (by decide)) (by decide)

end LunaOS.BuddyLimits
