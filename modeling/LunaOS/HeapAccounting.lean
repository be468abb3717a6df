import LunaOS.HeapConservation
import LunaOS.PageArithmetic

/-! The kernel heap over its free list (`memory/heap.cpp`): a counter of the bytes
in use, and an area that grows by fixed steps when a request does not fit. What one
turn of the loop that maps fresh pages does to the rest of the machine is a
parameter; a page that is mapped already keeps its bytes. -/
namespace LunaOS.HeapAccounting
open BitVec
open ByteMemory BoundedLoop PageArithmetic FreelistAllocator FreelistLayout FreelistRefinement FreelistSafety
  HeapConservation

/-- `K_HEAP_EXPANSION_STEP` -/
def heapExpansionStep : BitVec 64 := 0x100000
/-- `K_CONST_HEAP_MAX_EXPANSION` -/
def heapMaxExpansion : Addr := 0xFFFF800150100000

/-- The globals of the heap and the rest of the machine. -/
structure KernelHeap (σ : Type) where
  heapStart : Addr
  heapEnd : Addr
  heapInitialized : Bool
  head : Addr
  mem : Memory
  heapUsed : BitVec 64
  machine : σ

/-- What a call of `heapAllocate` ends with: its result, or `none` in `kernelPanic`,
and the number of expansions on the way. -/
structure Answer (σ : Type) where
  pointer : Option Addr
  heap : KernelHeap σ
  expansions : Nat

section Heap
variable {σ : Type} (mapFresh : σ → Addr → Option σ)

/-- `heapInitialize`, after the pages of the area were mapped. -/
def heapInitialize (mem : Memory) (start finish : Addr) (machine : σ) : KernelHeap σ where
  heapStart := start
  heapEnd := finish
  heapInitialized := true
  head := start
  mem := init mem start finish
  heapUsed := 0
  machine := machine

/-- One page of the loop in `heapExpand`; without a physical page it gives up. -/
def mapTurn (limit : Addr) : Addr × σ → Turn (Addr × σ) (Option σ)
  | (virt, machine) =>
    if virt < limit then
      match mapFresh machine virt with
      | none => .leave none
      | some machine => .again (virt + pageSize, machine)
    else .leave (some machine)

/-- `heapExpand` of an initialized heap. -/
def heapExpand (heap : KernelHeap σ) : Option (Bool × KernelHeap σ) :=
  if heapMaxExpansion < heap.heapEnd + heapExpansionStep then some (false, heap)
  else do
    match ← iterate (mapTurn mapFresh (heap.heapEnd + heapExpansionStep)) maxTurns (heap.heapStart, heap.machine) with
    | none => some (false, heap)
    | some machine =>
      let mem ← expand heap.head heap.mem heapExpansionStep
      some (true, { heap with mem, machine, heapEnd := heap.heapEnd + heapExpansionStep })

/-- `heapAllocate` after `heapExpand`: the recursive call, or `kernelPanic`. -/
def afterExpand (expansions : Nat) : Option (Bool × KernelHeap σ) → Turn (KernelHeap σ × Nat) (Option (Answer σ))
  | none => .leave none
  | some (true, heap) => .again (heap, expansions + 1)
  | some (false, heap) => .leave (some ⟨none, heap, expansions⟩)

/-- `heapAllocate` after `heapAllocator.allocate`. -/
def afterAllocate (size : BitVec 64) (heap : KernelHeap σ) (expansions : Nat) :
    Option (Addr × Memory) → Turn (KernelHeap σ × Nat) (Option (Answer σ))
  | none => .leave none
  | some (pointer, mem) =>
    let heap := { heap with mem }
    if pointer = 0 then afterExpand expansions (heapExpand mapFresh heap)
    else .leave (some ⟨some pointer, { heap with heapUsed := heap.heapUsed + size }, expansions⟩)

/-- One level of the recursion of `heapAllocate`. -/
def heapAllocateTurn (size : BitVec 64) (state : KernelHeap σ × Nat) :
    Turn (KernelHeap σ × Nat) (Option (Answer σ)) :=
  afterAllocate mapFresh size state.1 state.2 (allocate state.1.head state.1.mem size)

/-- `heapAllocate` -/
def heapAllocate (heap : KernelHeap σ) (size : BitVec 64) : Option (Answer σ) :=
  if size = 0 then some ⟨some 0, heap, 0⟩
  else if !heap.heapInitialized then some ⟨none, heap, 0⟩
  else (iterate (heapAllocateTurn mapFresh size) maxTurns (heap, 0)).join

/-- `heapFree` of an initialized heap. -/
def heapFree (heap : KernelHeap σ) (pointer : Addr) : Option (KernelHeap σ) :=
  (free heap.head heap.mem pointer).map fun (size, mem) =>
    { heap with mem, heapUsed := heap.heapUsed - size }

/-- Calls that returned, and stores of the owners, from `heapInitialize` on, with the
allocations that are live. -/
inductive Served (mem : Memory) (start finish : Addr) : KernelHeap σ → List (Addr × BitVec 64) → Prop
  | initialized (machine : σ) : Served mem start finish (heapInitialize mem start finish machine) []
  | allocate {heap after : KernelHeap σ} {live : List (Addr × BitVec 64)} (size : BitVec 64) {pointer : Addr}
      {expansions : Nat} : Served mem start finish heap live → size ≠ 0 →
      sizeofChunkHeader.toNat + size.toNat < 2 ^ 64 →
      heapAllocate mapFresh heap size = some ⟨some pointer, after, expansions⟩ →
      Served mem start finish after ((pointer, size) :: live)
  | free {heap after : KernelHeap σ} {live : List (Addr × BitVec 64)} (pointer : Addr) (size : BitVec 64) :
      Served mem start finish heap live → (pointer, size) ∈ live → heapFree heap pointer = some after →
      Served mem start finish after (live.erase (pointer, size))
  | store {heap : KernelHeap σ} {live : List (Addr × BitVec 64)} (pointer : Addr) (size : BitVec 64)
      (offset count : Nat) (bytes : Nat → Byte) : Served mem start finish heap live →
      (pointer, size) ∈ live → offset + count ≤ size.toNat →
      Served mem start finish
        { heap with mem := write heap.mem (pointer + BitVec.ofNat 64 offset) count bytes } live

/-- The chunks of the list, in the order `next` visits them. -/
def Listed (mem : Memory) : Addr → List Addr → Prop
  | curr, [] => curr = 0
  | curr, chunk :: rest => curr = chunk ∧ chunk ≠ 0 ∧ Listed mem (header mem chunk).next rest

/-- The sum of the size fields of the used ones. -/
def usedSize (mem : Memory) (chunks : List Addr) : Nat :=
  ((chunks.filter fun chunk => (header mem chunk).used).map fun chunk => (header mem chunk).size.toNat).sum

def liveSize (live : List (Addr × BitVec 64)) : Nat := (live.map fun allocation => allocation.2.toNat).sum

/-- The heap as its free list sees it. -/
def KernelHeap.view (heap : KernelHeap σ) (live : List (Addr × BitVec 64)) : Heap :=
  ⟨heap.head, heap.mem, heap.heapEnd.toNat, live⟩

/-- The invariant of the calls. -/
structure Accounted (heap : KernelHeap σ) (live : List (Addr × BitVec 64)) (blocks : List Block) : Prop where
  sound : Sound (heap.view live) blocks
  ready : heap.heapInitialized = true
  bounded : heap.heapEnd.toNat ≤ heapMaxExpansion.toNat
  used : heap.heapUsed.toNat = liveSize live

end Heap

/-! ## Sizes -/

theorem payloads_le_total (blocks : List Block) : ((payloads blocks).map Prod.snd).sum ≤ total blocks := by
  induction blocks with
  | nil => exact Nat.le_refl 0
  | cons block rest ih =>
    rw [payloads_cons, total_cons]
    split
    · rw [List.map_cons, List.sum_cons]
      omega
    · omega

/-- The records of a layout fit between its first chunk and the limit. -/
theorem layout_total (layout : Layout limit (block :: rest)) : block.addr + total (block :: rest) ≤ limit := by
  induction rest generalizing block with
  | nil =>
    have inside := layout_inside layout (List.mem_singleton.mpr rfl)
    simpa using inside
  | cons second rest ih =>
    obtain ⟨gaps, spaced⟩ := List.pairwise_cons.mp layout.spaced
    have gap := gaps second (by simp)
    have tail : Layout limit (second :: rest) := by
      refine ⟨spaced, ?_⟩
      obtain ⟨front, last, shape, idle, inside⟩ := layout.last
      cases front with
      | nil => cases shape
      | cons first front => exact ⟨front, last, (List.cons.inj shape).2, idle, inside⟩
    have bound := ih tail
    rw [total_cons]
    simp only [Block.Before] at gap
    omega

theorem live_payloads {heap : Heap} {blocks : List Block} (sound : Sound heap blocks) :
    liveSize heap.live = ((payloads blocks).map Prod.snd).sum := by
  have same := (sound.live.map Prod.snd).sum_nat
  rw [List.map_map] at same
  exact same

/-- What is live fits into the area. -/
theorem live_bounded {heap : Heap} {blocks : List Block} (sound : Sound heap blocks) :
    liveSize heap.live < 2 ^ 64 := by
  rw [live_payloads sound]
  have room := sound.room
  have payload := payloads_le_total blocks
  obtain ⟨front, tail, shape, _⟩ := sound.layout.last
  have layout := sound.layout
  cases blocks with
  | nil => simp at shape
  | cons first rest =>
    have bound := layout_total layout
    omega

theorem segment_listed (stored : Segment mem curr blocks 0) :
    ∃ chunks, Listed mem curr chunks ∧ usedSize mem chunks = ((payloads blocks).map Prod.snd).sum := by
  induction blocks generalizing curr with
  | nil => exact ⟨[], stored, rfl⟩
  | cons block rest ih =>
    obtain ⟨records, tail⟩ := stored
    obtain ⟨chunks, listed, same⟩ := ih tail
    refine ⟨curr :: chunks, ⟨rfl, records.present, listed⟩, ?_⟩
    rw [payloads_cons, ← records.flag]
    cases used : (header mem curr).used with
    | false => simpa [usedSize, used] using same
    | true =>
      simp only [usedSize, List.filter_cons, used, if_true, List.map_cons, List.sum_cons, records.extent]
      rw [← same]
      rfl

/-! ## Calls -/

/-- The search for a chunk ends for every size, and leaves memory alone when nothing was found. -/
theorem allocate_any (stored : Segment mem head blocks 0) (layout : Layout limit blocks)
    (room : limit + 34 ≤ 2 ^ 64) (size : BitVec 64) :
    ∃ pointer after, allocate head mem size = some (pointer, after) ∧ (pointer = 0 → after = mem) := by
  by_cases zero : size = 0
  · refine ⟨0, mem, ?_, fun _ => rfl⟩
    rw [allocate, if_pos zero]
  · rcases allocate_finds stored (layout_length layout (by omega)) zero with
      ⟨missed, _⟩ | ⟨pre, block, post, curr, rfl, _, _, _, recorded, _, found⟩
    · exact ⟨0, mem, missed, fun _ => rfl⟩
    · refine ⟨_, _, found, fun null => ?_⟩
      have position := recorded.position
      have bound := layout_addr layout (show block ∈ _ by simp)
      have place : (curr + sizeofChunkHeader).toNat = curr.toNat + 17 := payload_place (by omega)
      exact absurd null (present_of_pos (by omega))

section Calls
variable {σ : Type} {mapFresh : σ → Addr → Option σ} {heap : KernelHeap σ} {live : List (Addr × BitVec 64)}
  {blocks : List Block} {size : BitVec 64}

theorem pageSize_toNat_eq : pageSize.toNat = 4096 := rfl

/-- The loop over the pages ends. -/
theorem mapPages_returns {limit : Addr} (room : limit.toNat + 4096 ≤ 2 ^ 64) (turns : Nat) (virt : Addr) (machine : σ)
    (fuel : limit.toNat - virt.toNat < turns) :
    ∃ result, iterate (mapTurn mapFresh limit) turns (virt, machine) = some result := by
  induction turns generalizing virt machine with
  | zero => omega
  | succ turns ih =>
    by_cases inside : virt < limit
    · cases drawn : mapFresh machine virt with
      | none =>
        have left : mapTurn mapFresh limit (virt, machine) = .leave none := by simp [mapTurn, inside, drawn]
        exact ⟨none, iterate_leave left (by omega)⟩
      | some next =>
        have asked : mapTurn mapFresh limit (virt, machine) = .again (virt + pageSize, next) := by
          simp [mapTurn, inside, drawn]
        rw [iterate_again asked]
        refine ih _ _ ?_
        rw [lt_def] at inside
        rw [toNat_add, pageSize_toNat_eq]
        omega
    · have left : mapTurn mapFresh limit (virt, machine) = .leave (some machine) := by simp [mapTurn, inside]
      exact ⟨some machine, iterate_leave left (by omega)⟩

/-- The chunk list of the heap takes another step. -/
theorem Accounted.expands (accounted : Accounted heap live blocks) :
    ∃ mem more, expand heap.head heap.mem heapExpansionStep = some mem ∧
      Sound ⟨heap.head, mem, heap.heapEnd.toNat + heapExpansionStep.toNat, live⟩ more := by
  have top : heapMaxExpansion.toNat = 0xFFFF800150100000 := rfl
  have step : heapExpansionStep.toNat = 0x100000 := rfl
  have sound := accounted.sound
  have bounded := accounted.bounded
  obtain ⟨front, tail, shape, idle, _⟩ := sound.layout.last
  subst shape
  have room : (heap.view live).limit + heapExpansionStep.toNat + 34 ≤ 2 ^ 64 := by
    simp only [KernelHeap.view]
    omega
  obtain ⟨mem, returned, _⟩ := expand_spec sound.stored sound.layout idle room
  obtain ⟨more, soundAfter, _⟩ := expand_sound sound room returned
  exact ⟨mem, more, returned, soundAfter⟩

/-- An expansion ends; it moves the end of the area by one step, below the maximum, or fails. -/
theorem heapExpand_cases (mapFresh : σ → Addr → Option σ) (accounted : Accounted heap live blocks) :
    (∃ after, heapExpand mapFresh heap = some (false, after)) ∨
      ∃ after more, heapExpand mapFresh heap = some (true, after) ∧ Accounted after live more ∧
        after.heapEnd.toNat = heap.heapEnd.toNat + heapExpansionStep.toNat := by
  obtain ⟨mem, more, ran, soundAfter⟩ := accounted.expands
  obtain ⟨_, ready, bounded, used⟩ := accounted
  have top : heapMaxExpansion.toNat = 0xFFFF800150100000 := rfl
  have step : heapExpansionStep.toNat = 0x100000 := rfl
  have place : (heap.heapEnd + heapExpansionStep).toNat = heap.heapEnd.toNat + heapExpansionStep.toNat := by
    rw [toNat_add]
    omega
  unfold heapExpand
  by_cases full : heapMaxExpansion < heap.heapEnd + heapExpansionStep
  · rw [if_pos full]
    exact .inl ⟨heap, rfl⟩
  · rw [if_neg full]
    rw [lt_def] at full
    have ends : (heap.heapEnd + heapExpansionStep).toNat + 4096 ≤ 2 ^ 64 := by omega
    obtain ⟨mapped, loop⟩ : ∃ mapped, iterate (mapTurn mapFresh (heap.heapEnd + heapExpansionStep)) maxTurns
        (heap.heapStart, heap.machine) = some mapped :=
      mapPages_returns ends maxTurns heap.heapStart heap.machine (by rw [maxTurns]; omega)
    rw [loop]
    cases mapped with
    | none => exact .inl ⟨heap, rfl⟩
    | some machine =>
      refine .inr ⟨{ heap with mem, machine, heapEnd := heap.heapEnd + heapExpansionStep }, more, ?_,
        ⟨?_, ready, ?_, used⟩, place⟩
      · simp only [Option.bind_eq_bind, Option.bind_some, ran]
      · simpa only [KernelHeap.view, place] using soundAfter
      · simp only [place]
        omega

theorem liveSize_cons (pointer : Addr) (size : BitVec 64) (live : List (Addr × BitVec 64)) :
    liveSize ((pointer, size) :: live) = size.toNat + liveSize live := by
  simp [liveSize]

theorem liveSize_erase (held : (pointer, size) ∈ live) :
    liveSize live = size.toNat + liveSize (live.erase (pointer, size)) := by
  exact ((List.perm_cons_erase held).map _).sum_nat

/-- A level that found a chunk adds the request to what is in use. -/
theorem Accounted.granted {pointer : Addr} {mem : Memory} (accounted : Accounted heap live blocks)
    (request : sizeofChunkHeader.toNat + size.toNat < 2 ^ 64)
    (ran : allocate heap.head heap.mem size = some (pointer, mem)) (present : pointer ≠ 0) :
    ∃ more, Accounted { heap with mem, heapUsed := heap.heapUsed + size } ((pointer, size) :: live) more := by
  obtain ⟨sound, ready, bounded, used⟩ := accounted
  obtain ⟨more, soundAfter, _⟩ := allocate_sound sound request ran
  rw [if_neg present] at soundAfter
  refine ⟨more, soundAfter, ready, bounded, ?_⟩
  have fits := live_bounded soundAfter
  simp only [KernelHeap.view, liveSize_cons] at fits ⊢
  rw [toNat_add, used, Nat.mod_eq_of_lt (by omega), Nat.add_comm]

theorem heapAllocateTurn_missed (mapFresh : σ → Addr → Option σ) (count : Nat)
    (missed : allocate heap.head heap.mem size = some (0, heap.mem))
    (expanded : heapExpand mapFresh heap = some (grown, after)) : heapAllocateTurn mapFresh size (heap, count) =
      if grown then .again (after, count + 1) else .leave (some ⟨none, after, count⟩) := by
  rw [heapAllocateTurn, missed, afterAllocate, if_pos rfl, expanded]
  cases grown <;> rfl

theorem heapAllocateTurn_found (mapFresh : σ → Addr → Option σ) (count : Nat) {pointer : Addr} {mem : Memory}
    (found : allocate heap.head heap.mem size = some (pointer, mem)) (present : pointer ≠ 0) :
    heapAllocateTurn mapFresh size (heap, count) =
      .leave (some ⟨some pointer, { heap with mem, heapUsed := heap.heapUsed + size }, count⟩) := by
  rw [heapAllocateTurn, found, afterAllocate, if_neg present]

/-- What one level of the recursion does. -/
theorem heapAllocateTurn_cases (mapFresh : σ → Addr → Option σ) (accounted : Accounted heap live blocks)
    (size : BitVec 64) (count : Nat) :
    (∃ answer, heapAllocateTurn mapFresh size (heap, count) = .leave (some answer) ∧ answer.expansions = count ∧
      ∀ pointer, answer.pointer = some pointer → sizeofChunkHeader.toNat + size.toNat < 2 ^ 64 →
        ∃ more, Accounted answer.heap ((pointer, size) :: live) more) ∨
    ∃ after more, heapAllocateTurn mapFresh size (heap, count) = .again (after, count + 1) ∧
      Accounted after live more ∧ after.heapEnd.toNat = heap.heapEnd.toNat + heapExpansionStep.toNat := by
  obtain ⟨pointer, mem, ran, missed⟩ := allocate_any accounted.sound.stored accounted.sound.layout
    accounted.sound.room size
  by_cases null : pointer = 0
  · rw [missed null, null] at ran
    rcases heapExpand_cases mapFresh accounted with ⟨after, failed⟩ | ⟨after, more, grown, next⟩
    · exact .inl ⟨⟨none, after, count⟩, heapAllocateTurn_missed mapFresh count ran failed, rfl,
        fun _ found => nomatch found⟩
    · exact .inr ⟨after, more, heapAllocateTurn_missed mapFresh count ran grown, next⟩
  · refine .inl ⟨_, heapAllocateTurn_found mapFresh count ran null, rfl, ?_⟩
    intro found same request
    cases same
    exact accounted.granted request ran null

/-- How many steps are left to the maximum. -/
def stepsLeft (heap : KernelHeap σ) : Nat :=
  (heapMaxExpansion.toNat - heap.heapEnd.toNat) / heapExpansionStep.toNat

/-- The recursion ends after at most the steps that are left. -/
theorem heapAllocate_recursion (mapFresh : σ → Addr → Option σ) (accounted : Accounted heap live blocks)
    (size : BitVec 64) (count turns : Nat) (fuel : stepsLeft heap < turns) :
    ∃ answer, iterate (heapAllocateTurn mapFresh size) turns (heap, count) = some (some answer) ∧
      answer.expansions ≤ count + stepsLeft heap ∧
      ∀ pointer, answer.pointer = some pointer → sizeofChunkHeader.toNat + size.toNat < 2 ^ 64 →
        ∃ more, Accounted answer.heap ((pointer, size) :: live) more := by
  induction turns generalizing heap blocks count with
  | zero => omega
  | succ turns ih =>
    rcases heapAllocateTurn_cases mapFresh accounted size count with
      ⟨answer, left, same, granted⟩ | ⟨after, more, asked, next, moved⟩
    · exact ⟨answer, iterate_leave left (by omega), by omega, granted⟩
    · have fewer : stepsLeft after + 1 ≤ stepsLeft heap := by
        have bound := next.bounded
        have step : heapExpansionStep.toNat = 0x100000 := rfl
        simp only [stepsLeft, moved, step] at bound ⊢
        omega
      obtain ⟨answer, ran, bounded, granted⟩ := ih next (count + 1) (by omega)
      rw [iterate_again asked]
      exact ⟨answer, ran, by omega, granted⟩

theorem heapAllocate_returns (mapFresh : σ → Addr → Option σ) (accounted : Accounted heap live blocks)
    (size : BitVec 64) :
    ∃ answer, heapAllocate mapFresh heap size = some answer ∧ answer.expansions ≤ stepsLeft heap ∧
      ∀ pointer, answer.pointer = some pointer → size ≠ 0 → sizeofChunkHeader.toNat + size.toNat < 2 ^ 64 →
        ∃ more, Accounted answer.heap ((pointer, size) :: live) more := by
  by_cases zero : size = 0
  · exact ⟨⟨some 0, heap, 0⟩, by rw [heapAllocate, if_pos zero], Nat.zero_le _, fun _ _ nonzero => absurd zero nonzero⟩
  · have fuel : stepsLeft heap < maxTurns := by
      have bound : stepsLeft heap ≤ heapMaxExpansion.toNat - heap.heapEnd.toNat := by
        exact Nat.div_le_self _ _
      rw [maxTurns]
      omega
    obtain ⟨answer, ran, bounded, granted⟩ := heapAllocate_recursion mapFresh accounted size 0 maxTurns fuel
    refine ⟨answer, ?_, by omega, fun pointer found _ request => granted pointer found request⟩
    rw [heapAllocate, if_neg zero, accounted.ready, if_neg (by decide), ran]
    rfl

theorem Accounted.freed {after : KernelHeap σ} (accounted : Accounted heap live blocks)
    (held : (pointer, size) ∈ live) (ran : heapFree heap pointer = some after) :
    ∃ more, Accounted after (live.erase (pointer, size)) more := by
  obtain ⟨sound, ready, bounded, used⟩ := accounted
  obtain ⟨⟨freed, mem⟩, returned, rfl⟩ := Option.map_eq_some_iff.mp ran
  obtain ⟨more, soundAfter, _, same⟩ := free_sound sound held returned
  subst same
  refine ⟨more, soundAfter, ready, bounded, ?_⟩
  have split := liveSize_erase held
  have within : freed.toNat ≤ heap.heapUsed.toNat := by omega
  rw [toNat_sub_of_le (le_def.mpr within)]
  omega

theorem Served.accounted {mem : Memory} {start finish : Addr} (present : start ≠ 0)
    (order : start.toNat ≤ finish.toNat) (bounded : finish.toNat ≤ heapMaxExpansion.toNat)
    (served : Served mapFresh mem start finish heap live) : ∃ blocks, Accounted heap live blocks := by
  induction served with
  | initialized machine =>
    have top : heapMaxExpansion.toNat = 0xFFFF800150100000 := rfl
    exact ⟨_, boot_sound mem present order (by omega), rfl, bounded, rfl⟩
  | allocate size _ pos request ran ih =>
    obtain ⟨blocks, accounted⟩ := ih
    obtain ⟨answer, returned, _, granted⟩ := heapAllocate_returns mapFresh accounted size
    cases returned.symm.trans ran
    exact granted _ rfl pos request
  | free pointer size _ held ran ih =>
    obtain ⟨blocks, accounted⟩ := ih
    exact accounted.freed held ran
  | store pointer size offset count bytes _ held inside ih =>
    obtain ⟨blocks, sound, ready, bounded, used⟩ := ih
    exact ⟨blocks, store_sound sound held inside, ready, bounded, used⟩

end Calls

/-- The counter is the sum of the live requests and of the used chunks' sizes, and every
call ends after at most the expansions that are left. -/
theorem heap_accounting {σ : Type} (mapFresh : σ → Addr → Option σ) (mem : Memory) (start finish : Addr)
    (present : start ≠ 0) (order : start.toNat ≤ finish.toNat) (bounded : finish.toNat ≤ heapMaxExpansion.toNat)
    (heap : KernelHeap σ) (live : List (Addr × BitVec 64)) (served : Served mapFresh mem start finish heap live) :
    heap.heapUsed.toNat = liveSize live ∧
      (∃ chunks, Listed heap.mem heap.head chunks ∧ usedSize heap.mem chunks = heap.heapUsed.toNat) ∧
      ∀ size, ∃ answer, heapAllocate mapFresh heap size = some answer ∧
        answer.expansions ≤ (heapMaxExpansion.toNat - heap.heapEnd.toNat) / heapExpansionStep.toNat := by
  obtain ⟨blocks, accounted⟩ := served.accounted present order bounded
  refine ⟨accounted.used, ?_, fun size => ?_⟩
  · obtain ⟨chunks, listed, same⟩ := segment_listed accounted.sound.stored
    refine ⟨chunks, listed, same.trans ?_⟩
    rw [accounted.used]
    exact (live_payloads accounted.sound).symm
  · obtain ⟨answer, ran, few, _⟩ := heapAllocate_returns mapFresh accounted size
    rw [stepsLeft] at few
    exact ⟨answer, ran, few⟩

/-- The kernel's heap after its first request. -/
theorem heap_accounting_first : ∃ heap : KernelHeap Unit,
    Served (fun machine _ => some machine) (fun _ => 0) heapDefaultStart heapDefaultEnd heap
      [(heapDefaultStart + 17, 16)] ∧ heap.heapUsed.toNat = 16 := by
  let fresh : Unit → Addr → Option Unit := fun machine _ => some machine
  let booted : KernelHeap Unit := heapInitialize (fun _ => 0) heapDefaultStart heapDefaultEnd ()
  have found : allocate booted.head booted.mem 16 =
      some (heapDefaultStart + 17, split defaultMemory heapDefaultStart 16) :=
    allocate_granted (by decide) (by decide) default_header (by decide)
  have granted : heapAllocate fresh booted 16 = some ⟨some (heapDefaultStart + 17),
      { booted with mem := split defaultMemory heapDefaultStart 16, heapUsed := booted.heapUsed + 16 }, 0⟩ := by
    have turn := heapAllocateTurn_found fresh 0 found (by decide)
    rw [heapAllocate, if_neg (by decide), if_neg (by decide), iterate_leave turn (by decide)]
    rfl
  have served := Served.allocate 16 (.initialized ()) (by decide) (by decide) granted
  exact ⟨_, served, (heap_accounting _ _ _ _ (by decide) (by decide) (by decide) _ _ served).1⟩

end LunaOS.HeapAccounting
