import LunaOS.BuddyRuns

/-! Pointers released a second time, and pointers the buddy allocator never gave.
`deallocate` tells them by the tag of the header before the pointer. A block keeps
this header when the merging loop ends there; the header of a block that its left
buddy absorbed stays behind with a clear tag. -/
namespace LunaOS.BuddyReleases
open Function ByteMemory BoundedLoop BuddyAllocator BuddyHeaders BuddyInvariant BuddyCalls BuddyRuns

/-! ## Traces -/

/-- A pointer released and not handed out since. It is intact when its block kept the header on
release and no owner of a larger block has written to the tag since. -/
structure Released where
  pointer : Addr
  intact : Bool

section Traces
variable (region : Region)

/-- The merging loop ends at the header before the pointer. -/
def KeepsHeader (mem : Memory) (pointer : Addr) : Prop :=
  headerAfter region.alloc mem (pointer - headerSize) = some (pointer - headerSize)

instance (mem : Memory) (pointer : Addr) : Decidable (KeepsHeader region mem pointer) :=
  inferInstanceAs (Decidable (_ = _))

def remember (state : State) (released : List Released) : Action → List Released
  | .allocate size => released.filter (·.pointer ≠ (allocate region.alloc state.mem size).1)
  | .deallocate pointer => ⟨pointer, KeepsHeader region state.mem pointer⟩ :: released
  | .store address _ =>
    released.map fun record => { record with intact := record.intact && address ≠ record.pointer - headerSize }

/-- A run of the allocator with the pointers released on the way. -/
inductive Traced (mem : Memory) : State → List Released → Prop
  | start : Traced mem (built region mem) []
  | step : Traced mem state released → Allowed state action → act region.alloc state action = some next →
      Traced mem next (remember region state released action)

/-- No list head and no header of the region differs. -/
def Unchanged (before after : Memory) : Prop :=
  ∀ place, region.Site place → header after place = header before place

/-- `deallocate` returns and leaves all lists, tags and orders as they were. -/
def Ignored (mem : Memory) (pointer : Addr) : Prop :=
  ∃ after, deallocate region.alloc mem pointer = some after ∧ Unchanged region mem after

/-- The header before the pointer is not in the region. -/
def Foreign (pointer : Addr) : Prop :=
  (pointer - headerSize).toNat < region.base.toNat ∨
    region.base.toNat + 2 ^ region.order ≤ (pointer - headerSize).toNat

end Traces

section Releases
variable {region : Region} {mem : Memory} {state next : State} {released : List Released}

/-! ## What the tag tells -/

theorem ignored_of_same (same : deallocate region.alloc mem pointer = some mem) : Ignored region mem pointer :=
  ⟨mem, same, fun _ _ => rfl⟩

theorem tagged_ignored (tagged : tag mem (pointer - headerSize) = true) : Ignored region mem pointer := by
  apply ignored_of_same
  simp only [deallocate, tagged, if_true, ite_self]

/-- What the range check refuses is left alone. -/
theorem refused_ignored (outside : (pointer - headerSize).toNat < region.base.toNat ∨
      (region.base.toNat + 2 ^ region.order) % 2 ^ 64 < (pointer - headerSize).toNat) :
    Ignored region mem pointer := by
  have refused : (pointer - headerSize < region.alloc.base ||
      region.alloc.base + region.alloc.size < pointer - headerSize) = true := by
    simp only [Bool.or_eq_true, decide_eq_true_eq, BitVec.lt_def, BitVec.toNat_add, region.size]
    exact outside
  apply ignored_of_same
  simp only [deallocate, refused, if_true]

/-- A foreign header passes the range check only right behind the region, and there its tag decides. -/
theorem foreign_ignored (foreign : Foreign region pointer)
    (behind : pointer - headerSize = region.base + region.alloc.size → tag mem (pointer - headerSize) = true) :
    Ignored region mem pointer := by
  by_cases last : pointer - headerSize = region.base + region.alloc.size
  · exact tagged_ignored (behind last)
  · apply refused_ignored
    have pos := Nat.two_pow_pos region.order
    have place : (region.base + region.alloc.size).toNat ≠ (pointer - headerSize).toNat :=
      fun same => last (BitVec.eq_of_toNat_eq same).symm
    rw [BitVec.toNat_add, region.size] at place
    rcases foreign with low | high <;> omega

theorem wrapping_ignored (wraps : region.base.toNat + 2 ^ region.order = 2 ^ 64) : Ignored region mem pointer := by
  apply refused_ignored
  have size := region.size_lt
  omega

/-! ## What the calls leave of the tags -/

/-- The records are about headers of the region, and intact ones carry the tag. -/
def Marked (region : Region) (mem : Memory) (released : List Released) : Prop :=
  ∀ record ∈ released, region.Site (record.pointer - headerSize) ∧
    (record.intact = true → tag mem (record.pointer - headerSize) = true)

/-- Where no tag is lost, the records stay right. -/
theorem Marked.grow (marked : Marked region mem released) (subset : ∀ record ∈ remaining, record ∈ released)
    (grown : ∀ record ∈ remaining, (region.view mem).tag (record.pointer - headerSize) ≤
      (region.view after).tag (record.pointer - headerSize)) : Marked region after remaining := by
  intro record member
  obtain ⟨site, set⟩ := marked record (subset record member)
  refine ⟨site, fun intact => ?_⟩
  have kept := grown record member
  rw [(view_site site).1, (view_site site).1, set intact] at kept
  exact Bool.eq_true_of_true_le kept

theorem allocate_marked (kept : Kept region state lists held) (bound : size.toNat + 18 ≤ 2 ^ 63)
    (acted : act region.alloc state (.allocate size) = some next) (marked : Marked region state.mem released) :
    Marked region next.mem (remember region state released (.allocate size)) := by
  have subset : ∀ record ∈ remember region state released (.allocate size), record ∈ released :=
    fun _ member => List.mem_of_mem_filter member
  rcases allocate_shape kept.shape bound with ⟨missed, _⟩ | ⟨block, _, after, found, _, grown⟩
  · have same : state.mem = next.mem := by
      simp only [act, missed] at acted
      exact congrArg State.mem (Option.some.inj acted)
    exact marked.grow subset fun _ _ => by rw [same]
  · obtain rfl : after = next.mem := by
      simp only [act, found] at acted
      exact congrArg State.mem (Option.some.inj acted)
    refine marked.grow subset fun record member => grown _ ?_
    rintro rfl
    have other := (List.mem_filter.mp member).2
    simp only [found, BitVec.sub_add_cancel, ne_eq, not_true_eq_false, decide_false, Bool.false_eq_true] at other

theorem deallocate_marked (kept : Kept region state lists held)
    (ends : region.base.toNat + 2 ^ region.order < 2 ^ 64) (member : (pointer, size) ∈ state.live)
    (acted : act region.alloc state (.deallocate pointer) = some next) (marked : Marked region state.mem released) :
    Marked region next.mem (remember region state released (.deallocate pointer)) := by
  obtain ⟨block, rest, perm, rfl, _⟩ := live_block kept member
  obtain ⟨after, _, freed, _, joint, _, loop, _, _, merged⟩ := deallocate_shape kept.shape perm ends
  obtain rfl : after = next.mem := by
    simp only [act, freed] at acted
    exact congrArg State.mem (Option.some.inj acted)
  have tags : (region.view next.mem).tag = update (region.view state.mem).tag joint true := merged.tags
  intro record inside
  rcases List.mem_cons.mp inside with rfl | earlier
  · have owned : block ∈ held := perm.mem_iff.mpr List.mem_cons_self
    have site : region.Site block.start := kept.shape.site (held_mem owned) rfl
    simp only [KeepsHeader, BitVec.add_sub_cancel, loop, decide_eq_true_eq, Option.some.injEq]
    refine ⟨site, fun same => ?_⟩
    rw [← (view_site site).1, tags, same, update_self]
  · refine marked.grow (fun _ => id) (fun other _ => ?_) record earlier
    rw [tags]
    exact le_update_self_iff.mpr (Bool.le_true _) _

/-- Owners do not write to intact headers without the record of it. -/
theorem store_marked (acted : act region.alloc state (.store address byte) = some next)
    (marked : Marked region state.mem released) :
    Marked region next.mem (remember region state released (.store address byte)) := by
  intro record member
  obtain ⟨earlier, inside, rfl⟩ := List.mem_map.mp member
  obtain ⟨site, set⟩ := marked earlier inside
  refine ⟨site, fun intact => ?_⟩
  simp only [Bool.and_eq_true, decide_eq_true_eq] at intact
  cases acted
  have away : 1 ≤ (earlier.pointer - headerSize - address).toNat := by
    bv_omega
  have same : store8 state.mem address byte (earlier.pointer - headerSize) =
      state.mem (earlier.pointer - headerSize) := write_of_le away
  rw [← set intact.1]
  exact congrArg (BitVec.getLsbD · 0) same

theorem traced_marked (ends : region.base.toNat + 2 ^ region.order < 2 ^ 64)
    (traced : Traced region mem state released) : Run region mem state ∧ Marked region state.mem released := by
  induction traced with
  | start => exact ⟨.start, fun _ member => absurd member List.not_mem_nil⟩
  | @step state released action next _ allowed acted ih =>
    obtain ⟨run, marked⟩ := ih
    obtain ⟨lists, held, kept⟩ := run_kept ends run
    refine ⟨.step run allowed acted, ?_⟩
    cases action with
    | allocate size => exact allocate_marked kept allowed acted marked
    | deallocate pointer =>
      obtain ⟨size, member⟩ := allowed
      exact deallocate_marked kept ends member acted marked
    | store address byte => exact store_marked acted marked

/-! ## A header left behind -/

/-- A header with a clear tag, at a buddy of another order, goes to the front of the list its order names. -/
theorem stale_pushed (shape : Shape region (region.view mem) lists held hand)
    (ends : region.base.toNat + 2 ^ region.order < 2 ^ 64) (site : region.Site block)
    (low : region.base.toNat ≤ block.toNat) (high : block.toNat < region.base.toNat + 2 ^ region.order)
    (clear : tag mem block = false) (below : k ≤ region.order) (order : kval mem block = BitVec.ofNat 8 k)
    (differs : kval mem (getBuddy mem block) ≠ kval mem block) :
    ∃ after, deallocate region.alloc mem (block + headerSize) = some after ∧ linkf after (region.list k) = block := by
  have start : block + headerSize - headerSize = block := BitVec.add_sub_cancel _ _
  have leaves : mergeTurn region.alloc (mem, block) = .leave (mem, block) :=
    if_neg fun goesOn => differs goesOn.2.2
  have loop : iterate (mergeTurn region.alloc) maxTurns (mem, block) = some (mem, block) :=
    iterate_leave leaves (by decide)
  refine ⟨pushBlock region.alloc mem block, ?_, ?_⟩
  · simp only [deallocate, start]
    rw [header_passes low high ends, clear, loop]
    rfl
  · rw [← (view_site (list_site below)).2.1, view_pushBlock site below order (first_site shape below)]
    exact update_self _ _ _

/-- Only at sites does the view have an order. -/
theorem viewed_order (viewed : (region.view mem).kval place = BitVec.ofNat 8 k) (pos : 0 < k)
    (small : k ≤ 47) : kval mem place = BitVec.ofNat 8 k := by
  by_cases site : region.Site place
  · exact (view_site site).2.2.2.symm.trans viewed
  · have zero : BitVec.ofNat 8 0 = BitVec.ofNat 8 k := (if_neg site).symm.trans viewed
    have equal := kval_injective (by decide) small zero
    omega

/-- A block that was absorbed on release goes to the front of a list when released once more. -/
theorem absorbed_pushed (shape : Shape region (region.view mem) lists held []) (perm : held.Perm (block :: rest))
    (ends : region.base.toNat + 2 ^ region.order < 2 ^ 64)
    (freed : deallocate region.alloc mem (block.start + headerSize) = some after)
    (absorbed : headerAfter region.alloc mem block.start ≠ some block.start) :
    ∃ last, ∃ k ≤ region.order, deallocate region.alloc after (block.start + headerSize) = some last ∧
      linkf last (region.list k) = block.start ∧ linkf after (region.list k) ≠ block.start := by
  have owned : block ∈ held := perm.mem_iff.mpr List.mem_cons_self
  have site : region.Site block.start := shape.site (held_mem owned) rfl
  obtain ⟨found, lists', ran, shape', joint, top, loop, small, _, merged⟩ := deallocate_shape shape perm ends
  obtain rfl : found = after := Option.some.inj (ran.symm.trans freed)
  have differ : joint ≠ block.start := fun same => absurd (same ▸ loop) absorbed
  have clear : tag found block.start = false := by
    have tags : (region.view found).tag = update (region.view mem).tag joint true := merged.tags
    rw [← (view_site site).1, tags, update_of_ne differ.symm]
    exact (shape.taken block owned).1
  obtain ⟨own, _, below, order, left⟩ := merged.order
  rw [(view_site site).2.2.2] at order
  have high := region.high
  have buddyDiffers : kval found (getBuddy found block.start) ≠ kval found block.start := by
    obtain ⟨other, higher, place, above, most, larger⟩ := left differ
    rw [← getBuddy_toNat order (by omega)] at place
    obtain rfl := BitVec.eq_of_toNat_eq place
    rw [viewed_order larger (by omega) (by omega), order]
    intro same
    have equal := kval_injective (by omega) (by omega) same
    omega
  obtain ⟨low, upper⟩ := shape.tiles.inside _ (held_mem owned)
  have pos := Nat.two_pow_pos block.order
  simp only [Block.piece] at low upper
  obtain ⟨last, again, first⟩ :=
    stale_pushed shape' ends site low (by omega) clear (Nat.le_trans below small) order buddyDiffers
  refine ⟨last, own, Nat.le_trans below small, again, first, fun listed => ?_⟩
  -- The blocks on a list carry the tag, and the list head is not in the region.
  have ring := (shape'.rings own (Nat.le_trans below small)).first_mem
  rw [(view_site (list_site (Nat.le_trans below small))).2.1, listed] at ring
  rcases List.mem_cons.mp ring with same | member
  · exact shape.not_list (held_mem owned) rfl (Nat.le_trans below small) same
  · have set := (shape'.marks own (Nat.le_trans below small) _ member).1
    rw [(view_site site).1, clear] at set
    cases set

/-- Released a second time at once, a pointer is ignored exactly when its block kept its header. -/
theorem released_again (kept : Kept region state lists held)
    (ends : region.base.toNat + 2 ^ region.order < 2 ^ 64) (member : (pointer, size) ∈ state.live)
    (acted : act region.alloc state (.deallocate pointer) = some next) :
    Ignored region next.mem pointer ↔ KeepsHeader region state.mem pointer := by
  obtain ⟨block, rest, perm, rfl, _⟩ := live_block kept member
  have freed : deallocate region.alloc state.mem (block.start + headerSize) = some next.mem := by
    obtain ⟨after, _, freed, _⟩ := deallocate_shape kept.shape perm ends
    simp only [act, freed] at acted
    rw [freed, ← Option.some.inj acted]
  constructor
  · rintro ⟨last, again, same⟩
    by_contra absorbed
    rw [KeepsHeader, BitVec.add_sub_cancel] at absorbed
    obtain ⟨found, k, below, pushed, first, other⟩ := absorbed_pushed kept.shape perm ends freed absorbed
    obtain rfl := Option.some.inj (again.symm.trans pushed)
    have forward := same _ (list_site below)
    simp only [header, Prod.mk.injEq] at forward
    exact other (forward.2.1.symm.trans first)
  · intro keeps
    have marked := deallocate_marked kept ends member acted (fun _ none => absurd none List.not_mem_nil)
    exact tagged_ignored ((marked _ List.mem_cons_self).2 (decide_eq_true keeps))

/-- When the last block comes back, the loop ends at the start of the region. -/
theorem last_release (shape : Shape region (region.view mem) lists [block] [])
    (ends : region.base.toNat + 2 ^ region.order < 2 ^ 64) :
    headerAfter region.alloc mem block.start = some region.base := by
  obtain ⟨_, lists', _, shape', joint, top, loop, small, member, _⟩ := deallocate_shape shape (.refl _) ends
  obtain ⟨whole, none⟩ := shape_restored shape'
  obtain rfl : top = region.order := by
    by_contra other
    rw [none top (by omega)] at member
    cases member
  rw [whole, List.mem_singleton] at member
  rw [loop, member]

end Releases

/-- In every run, a pointer released before is ignored as long as it is intact, and so is a pointer
with a header outside the region, but for the header right behind it, where the tag must be set. A
pointer released twice in a row is ignored exactly when its block kept its header the first time. -/
theorem release_ignored (region : Region) (mem : Memory) (traced : Traced region mem state released) :
    (∀ record ∈ released, record.intact = true → Ignored region state.mem record.pointer) ∧
    (∀ pointer, Foreign region pointer → (pointer - headerSize = region.base + region.alloc.size →
      tag state.mem (pointer - headerSize) = true) → Ignored region state.mem pointer) ∧
    (region.base.toNat + 2 ^ region.order < 2 ^ 64 → ∀ pointer size next, (pointer, size) ∈ state.live →
      act region.alloc state (.deallocate pointer) = some next →
      (Ignored region next.mem pointer ↔ KeepsHeader region state.mem pointer)) := by
  refine ⟨?_, fun pointer foreign behind => foreign_ignored foreign behind, ?_⟩
  · intro record member intact
    by_cases ends : region.base.toNat + 2 ^ region.order < 2 ^ 64
    · obtain ⟨_, marked⟩ := traced_marked ends traced
      exact tagged_ignored ((marked record member).2 intact)
    · have most := region.ends
      exact wrapping_ignored (by omega)
  · intro ends pointer size next live acted
    obtain ⟨lists, held, kept⟩ := run_kept ends (traced_marked ends traced).1
    exact released_again kept ends live acted

/-! ## A region of two blocks -/

/-- A region of 64 bytes at 0x4000. -/
def pairRegion : Region where
  avail := 0x1000
  base := 0x4000
  order := 6
  low := by decide
  high := by decide
  aligned := by decide
  object := topRegion.object
  apart := by decide

/-- The first and the second request for one byte. -/
def firstBlock : Addr × Memory := allocate pairRegion.alloc (initLists pairRegion.alloc fun _ => 0) 1
def secondBlock : Addr × Memory := allocate pairRegion.alloc firstBlock.2 1

theorem pair_pointers : firstBlock.1 = 0x4012 ∧ secondBlock.1 = 0x4032 := by
  decide +kernel

/-- A request met in a run. -/
theorem request_traced (traced : Traced region mem state []) (bound : size.toNat + 18 ≤ 2 ^ 63)
    (pointer : (allocate region.alloc state.mem size).1 = given) (met : given ≠ 0) :
    Traced region mem ⟨(allocate region.alloc state.mem size).2, (given, size) :: state.live⟩ [] := by
  have allowed : Allowed state (.allocate size) := bound
  refine .step traced allowed ?_
  simp only [act, pointer, if_neg met]

theorem first_traced : Traced pairRegion (fun _ => 0) ⟨firstBlock.2, [(0x4012, 1)]⟩ [] :=
  request_traced .start (by decide) pair_pointers.1 (by decide)

theorem pair_traced : Traced pairRegion (fun _ => 0) ⟨secondBlock.2, [(0x4032, 1), (0x4012, 1)]⟩ [] :=
  request_traced first_traced (by decide) pair_pointers.2 (by decide)

theorem pair_ends : pairRegion.base.toNat + 2 ^ pairRegion.order < 2 ^ 64 := by
  decide

/-- A release in a run returns, and the run goes on. -/
theorem release_traced {region : Region} (ends : region.base.toNat + 2 ^ region.order < 2 ^ 64)
    (traced : Traced region mem state released) (live : (pointer, size) ∈ state.live) :
    ∃ next, deallocate region.alloc state.mem pointer = some next ∧
      Traced region mem ⟨next, state.live.eraseP (·.1 == pointer)⟩
        (remember region state released (.deallocate pointer)) := by
  obtain ⟨lists, held, kept⟩ := run_kept ends (traced_marked ends traced).1
  obtain ⟨block, rest, perm, rfl, _⟩ := live_block kept live
  obtain ⟨after, _, freed, _⟩ := deallocate_shape kept.shape perm ends
  have allowed : Allowed state (.deallocate (block.start + headerSize)) := ⟨size, live⟩
  refine ⟨after, freed, .step traced allowed ?_⟩
  simp only [act, freed]

/-- With one pointer live, its release ends at the start of the region. -/
theorem last_traced {region : Region} (ends : region.base.toNat + 2 ^ region.order < 2 ^ 64)
    (traced : Traced region mem ⟨current, [(pointer, size)]⟩ released) :
    ∃ lists block, Shape region (region.view current) lists [block] [] ∧ block.start = pointer - headerSize ∧
      headerAfter region.alloc current block.start = some region.base := by
  obtain ⟨lists, held, kept⟩ := run_kept ends (traced_marked ends traced).1
  obtain ⟨block, rfl, same⟩ := List.map_eq_singleton_iff.mp kept.live.symm
  have shape : Shape region (region.view current) lists [block] [] := kept.shape
  have start : block.start + headerSize = pointer := congrArg Prod.fst same
  rw [← start, BitVec.add_sub_cancel]
  exact ⟨lists, block, shape, rfl, last_release shape ends⟩

/-- The block at the start of the region is released and stays intact. -/
theorem release_ignored_first : ∃ state, Traced pairRegion (fun _ => 0) state [⟨0x4012, true⟩] ∧
    Ignored pairRegion state.mem 0x4012 := by
  obtain ⟨next, freed, traced⟩ := release_traced pair_ends first_traced List.mem_cons_self
  obtain ⟨_, block, _, start, loop⟩ := last_traced pair_ends first_traced
  have keeps : KeepsHeader pairRegion firstBlock.2 0x4012 := by
    rw [start] at loop
    exact loop
  simp only [remember, keeps, decide_true] at traced
  refine ⟨_, traced, ?_⟩
  exact (release_ignored pairRegion _ traced).1 _ List.mem_cons_self rfl

/-- Both blocks are released, the left one first. The right one is absorbed, and released once more
it goes on a list while the whole region is available. A header right behind the region, with a
clear tag, goes on a list as well. -/
theorem absorbed_released_again : (∃ state released, Traced pairRegion (fun _ => 0) state released ∧ state.live = [] ∧
      (∃ record ∈ released, record.pointer = 0x4032) ∧
      ∃ after, ∃ k ≤ 6, deallocate pairRegion.alloc state.mem 0x4032 = some after ∧
        linkf after (pairRegion.list k) = 0x4020 ∧ linkf state.mem (pairRegion.list k) ≠ 0x4020) ∧
    Foreign pairRegion 0x4052 ∧ (deallocate pairRegion.alloc (initLists pairRegion.alloc fun _ => 0) 0x4052).map
        (linkf · (pairRegion.list 0)) = some 0x4040 ∧
      linkf (initLists pairRegion.alloc fun _ => 0) (pairRegion.list 0) = pairRegion.list 0 := by
  refine ⟨?_, .inr (by decide), by decide +kernel, by decide +kernel⟩
  obtain ⟨left, _, traced⟩ := release_traced pair_ends pair_traced (List.mem_cons_of_mem _ List.mem_cons_self)
  obtain ⟨next, freed, traced'⟩ := release_traced pair_ends traced List.mem_cons_self
  obtain ⟨_, block, shape, start, loop⟩ := last_traced pair_ends traced
  have place : block.start = 0x4020 := start
  have pointer : block.start + headerSize = 0x4032 := by
    rw [place]
    rfl
  have absorbed : headerAfter pairRegion.alloc left block.start ≠ some block.start := by
    rw [loop, place]
    decide
  rw [← pointer] at freed
  obtain ⟨after, k, below, again, first, other⟩ := absorbed_pushed shape (.refl _) pair_ends freed absorbed
  rw [place] at first other
  rw [pointer] at again
  exact ⟨_, _, traced', rfl, ⟨_, List.mem_cons_self, rfl⟩, after, k, below, again, first, other⟩

end LunaOS.BuddyReleases
