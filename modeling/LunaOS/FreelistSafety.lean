import LunaOS.FreelistRefinement
import Mathlib.Logic.Relation

/-! Whole runs of the kernel heap. The state pairs the allocator's memory with
what its callers hold; owners may write anything inside their payloads between
calls. Safety is stated on addresses alone, over every run from `init`. -/
namespace LunaOS.FreelistSafety
open ByteMemory BoundedLoop FreelistAllocator FreelistLayout FreelistRefinement BitVec

/-- The heap and its callers: `limit` is one past the managed area, `live` the
pointers handed out and not yet freed, with the sizes asked for. -/
structure Heap where
  head : Addr
  mem : Memory
  limit : Nat
  live : List (Addr × BitVec 64)

def boot (mem : Memory) (start finish : Addr) : Heap :=
  ⟨start, init mem start finish, finish.toNat, []⟩

/-- One call of the allocator that returned, or one store of an owner. The area
stays inside the address space with room for the two headers `expand` may write
past its old end. -/
inductive Step (heap : Heap) : Heap → Prop where
  | allocate (size : BitVec 64) (request : sizeofChunkHeader.toNat + size.toNat < 2 ^ 64)
      (ran : allocate heap.head heap.mem size = some (pointer, mem)) :
      Step heap { heap with
        mem := mem
        live := if pointer = 0 then heap.live else (pointer, size) :: heap.live }
  | free (held : (pointer, size) ∈ heap.live)
      (ran : free heap.head heap.mem pointer = some (freed, mem)) :
      Step heap { heap with mem := mem, live := heap.live.erase (pointer, size) }
  | expand (amount : BitVec 64) (room : heap.limit + amount.toNat + 34 ≤ 2 ^ 64)
      (ran : expand heap.head heap.mem amount = some mem) :
      Step heap { heap with mem := mem, limit := heap.limit + amount.toNat }
  | store (held : (pointer, size) ∈ heap.live) (offset count : Nat) (bytes : Nat → Byte)
      (inside : offset + count ≤ size.toNat) :
      Step heap { heap with
        mem := write heap.mem (pointer + BitVec.ofNat 64 offset) count bytes }

abbrev Run := Relation.ReflTransGen Step

/-- The chunks found by following `next` from the head. -/
inductive Reachable (mem : Memory) (head : Addr) : Addr → Prop where
  | head (present : head ≠ 0) : Reachable mem head head
  | next (reached : Reachable mem head chunk) (present : (header mem chunk).next ≠ 0) :
      Reachable mem head (header mem chunk).next

theorem null_unreachable {mem : Memory} {head chunk : Addr} (null : head = 0) : ¬ Reachable mem head chunk := by
  intro reached
  induction reached with
  | head present => exact present null
  | next _ _ ih => exact ih

/-- Two regions, as address and length, share no byte. -/
def Clear (first second : Nat × Nat) : Prop :=
  ∀ byte, ¬ (first.1 ≤ byte ∧ byte < first.1 + first.2 ∧ second.1 ≤ byte ∧ byte < second.1 + second.2)

def region (allocation : Addr × BitVec 64) : Nat × Nat :=
  (allocation.1.toNat, allocation.2.toNat)

structure Safe (start : Addr) (heap : Heap) : Prop where
  disjoint : heap.live.Pairwise fun first second => Clear (region first) (region second)
  headers : ∀ allocation ∈ heap.live, ∀ chunk, Reachable heap.mem heap.head chunk →
    Clear (region allocation) (chunk.toNat, sizeofChunkHeader.toNat)
  inside : ∀ allocation ∈ heap.live,
    start.toNat ≤ allocation.1.toNat ∧ allocation.1.toNat + allocation.2.toNat ≤ heap.limit

/-- The invariant: memory stores a chunk list with a valid layout whose used
payloads are exactly the live allocations. -/
structure Sound (heap : Heap) (blocks : List Block) : Prop where
  stored : Segment heap.mem heap.head blocks 0
  layout : Layout heap.limit blocks
  live : (heap.live.map region).Perm (payloads blocks)
  room : heap.limit + 34 ≤ 2 ^ 64

theorem reachable_recorded (stored : Segment mem head blocks 0) (reached : Reachable mem head chunk) :
    ∃ pre block post, blocks = pre ++ block :: post ∧ Records mem chunk block ∧
      Segment mem (header mem chunk).next post 0 := by
  have split : ∀ (pre : List Block) {post chunk}, chunk ≠ 0 → Segment mem chunk post 0 →
      blocks = pre ++ post → ∃ pre block post, blocks = pre ++ block :: post ∧
        Records mem chunk block ∧ Segment mem (header mem chunk).next post 0 := by
    intro pre post chunk present tail shape
    cases post with
    | nil => exact absurd tail present
    | cons block post => exact ⟨pre, block, post, shape, tail⟩
  induction reached with
  | head present => exact split [] present stored rfl
  | next _ present ih =>
    obtain ⟨pre, block, post, shape, _, tail⟩ := ih
    exact split (pre ++ [block]) present tail (by simp [shape])

theorem head_lowest (stored : Segment mem head blocks 0) (layout : Layout limit blocks)
    (member : block ∈ blocks) : head.toNat ≤ block.addr := by
  cases blocks with
  | nil => cases member
  | cons first rest =>
    have position := stored.1.position
    rcases List.mem_cons.mp member with rfl | later
    · omega
    · have gap := (List.pairwise_cons.mp layout.spaced).1 block later
      simp only [Block.Before] at gap
      omega

/-- Payloads of a spaced list share no byte. -/
theorem payloads_clear (spaced : blocks.Pairwise Block.Before) : (payloads blocks).Pairwise Clear := by
  refine List.pairwise_map.mpr ((spaced.filter _).imp ?_)
  intro first second gap byte
  simp only [Block.Before] at gap
  omega

/-- The used blocks all precede the last one, so their payloads end inside. -/
theorem payload_inside (layout : Layout limit blocks) (member : block ∈ blocks)
    (used : block.used = true) : block.addr + 17 + block.size ≤ limit := by
  obtain ⟨front, tail, rfl, idle, inside⟩ := layout.last
  rcases List.mem_append.mp member with early | last
  · have gap := (List.pairwise_append.mp layout.spaced).2.2 block early tail (by simp)
    simp only [Block.Before] at gap
    omega
  · rw [List.mem_singleton.mp last, idle] at used
    cases used

theorem offset_place {pointer : Addr} (room : pointer.toNat + offset < 2 ^ 64) :
    (pointer + BitVec.ofNat 64 offset).toNat = pointer.toNat + offset := by
  have small : offset < 2 ^ 64 := by omega
  rw [toNat_add, toNat_ofNat, Nat.mod_eq_of_lt small, Nat.mod_eq_of_lt room]

/-- A header of the list ends before a payload begins, or begins after it. -/
theorem header_clear (layout : Layout limit blocks) (owned : owner ∈ blocks) (member : block ∈ blocks) :
    block.addr ≤ owner.addr ∨ owner.addr + 17 + owner.size ≤ block.addr := by
  obtain ⟨pre, post, rfl⟩ := List.append_of_mem owned
  obtain ⟨_, tail, across⟩ := List.pairwise_append.mp layout.spaced
  rcases List.mem_append.mp member with early | late
  · have gap := across block early owner (by simp)
    simp only [Block.Before] at gap
    omega
  · rcases List.mem_cons.mp late with rfl | later
    · exact .inl (Nat.le_refl _)
    · exact .inr ((List.pairwise_cons.mp tail).1 block later)

theorem live_block (sound : Sound heap blocks) (member : allocation ∈ heap.live) :
    ∃ block ∈ blocks, block.used = true ∧ region allocation = (block.addr + 17, block.size) :=
  mem_payloads.mp (sound.live.mem_iff.mp (List.mem_map_of_mem member))

theorem sound_safe (sound : Sound heap blocks) : Safe heap.head heap where
  disjoint := by
    have symmetric : ∀ {first second : Nat × Nat}, Clear first second → Clear second first := by
      intro first second clear byte both
      exact clear byte (by omega)
    exact List.pairwise_map.mp
      ((sound.live.pairwise_iff symmetric).mpr (payloads_clear sound.layout.spaced))
  headers := by
    intro allocation member chunk reached byte
    obtain ⟨block, held, _, place⟩ := live_block sound member
    obtain ⟨pre, other, post, rfl, recorded, _⟩ := reachable_recorded sound.stored reached
    have position := recorded.position
    have clear := header_clear sound.layout held (show other ∈ _ by simp)
    rw [place]
    simp only [sizeofChunkHeader]
    bv_omega
  inside := by
    intro allocation member
    obtain ⟨block, held, used, place⟩ := live_block sound member
    have low := head_lowest sound.stored sound.layout held
    have high := payload_inside sound.layout held used
    simp only [region, Prod.mk.injEq] at place
    omega

theorem boot_sound (mem : Memory) {start finish : Addr} (present : start ≠ 0)
    (order : start.toNat ≤ finish.toNat) (room : finish.toNat + 34 ≤ 2 ^ 64) :
    Sound (boot mem start finish) [⟨start.toNat, false, finish.toNat - start.toNat⟩] where
  stored := by
    have recorded : header (init mem start finish) start = ⟨0, false, finish - start⟩ := by
      simp [init]
    refine ⟨⟨present, rfl, by simp only [boot]; rw [recorded], ?_⟩, by simp only [boot]; rw [recorded]; rfl⟩
    simp only [boot]
    rw [recorded]
    exact toNat_sub_of_le (le_def.mpr order)
  layout := ⟨by simp, [], _, rfl, rfl, by simp only [boot]; omega⟩
  live := by simp [boot]
  room := room

section Steps
variable {heap : Heap} {blocks : List Block}

section Calls
variable (sound : Sound heap blocks)
include sound

/-- What a call of `allocate` does to the chunks: nothing, or the chunk before the pointer is carved. -/
theorem allocate_carves {size : BitVec 64} (request : 17 + size.toNat < 2 ^ 64)
    (ran : allocate heap.head heap.mem size = some (pointer, mem)) : (pointer = 0 ∧ mem = heap.mem) ∨
      ∃ pre block post, blocks = pre ++ [block] ++ post ∧
        blocks.find? (fun block => decide (Fits size.toNat block)) = some block ∧ Fits size.toNat block ∧
        pointer.toNat = block.addr + 17 ∧ Sound { heap with mem := mem, live := (pointer, size) :: heap.live }
          (pre ++ carve block size.toNat ++ post) := by
  have room := sound.room
  by_cases zero : size = 0
  · rw [allocate, if_pos zero] at ran
    cases ran
    exact .inl ⟨rfl, rfl⟩
  · rcases allocate_spec sound.stored sound.layout (by omega) zero request with
      ⟨missed, _⟩ | ⟨pre, block, post, curr, rfl, first, fits, position, found, stored⟩
    · rw [missed] at ran
      cases ran
      exact .inl ⟨rfl, rfl⟩
    · rw [found] at ran
      cases ran
      have inside := layout_inside sound.layout (show block ∈ _ by simp)
      have place : (curr + sizeofChunkHeader).toNat = block.addr + 17 := by
        simp only [sizeofChunkHeader]
        bv_omega
      refine .inr ⟨pre, block, post, rfl, first, fits, place, stored, layout_carve sound.layout fits.2, ?_, room⟩
      refine List.Perm.trans ?_ (payloads_carve fits.1).symm
      simpa [region, place] using sound.live

theorem allocate_sound {size : BitVec 64} (request : 17 + size.toNat < 2 ^ 64)
    (ran : allocate heap.head heap.mem size = some (pointer, mem)) : ∃ after, Sound { heap with
      mem := mem
      live := if pointer = 0 then heap.live else (pointer, size) :: heap.live } after ∧
      (pointer = 0 ∧ after = blocks ∨ pointer ≠ 0 ∧ Carves size.toNat blocks after) := by
  rcases allocate_carves sound request ran with ⟨rfl, rfl⟩ | ⟨pre, block, post, rfl, _, fits, place, carved⟩
  · exact ⟨blocks, sound, .inl ⟨rfl, rfl⟩⟩
  · have present : pointer ≠ 0 := present_of_pos (by omega)
    rw [if_neg present]
    exact ⟨_, carved, .inr ⟨present, pre, block, post, rfl, fits.1, fits.2, rfl⟩⟩

theorem free_sound {size : BitVec 64} (held : (pointer, size) ∈ heap.live)
    (ran : free heap.head heap.mem pointer = some (freed, mem)) : ∃ after, Sound { heap with
      mem := mem, live := heap.live.erase (pointer, size) } after ∧
      Releases blocks after ∧ freed = size := by
  have room := sound.room
  obtain ⟨block, member, used, place⟩ := live_block sound held
  obtain ⟨pre, post, shape⟩ := List.append_of_mem member
  rw [List.append_cons] at shape
  subst shape
  obtain ⟨_, after, returned, extent, stored⟩ := free_spec sound.stored sound.layout (by omega)
    (congrArg Prod.fst place) used
  rw [returned] at ran
  cases ran
  have same : freed.toNat = size.toNat := extent.trans (congrArg Prod.snd place).symm
  refine ⟨_, ⟨stored, layout_coalesce [] (layout_release sound.layout), ?_, room⟩,
    ⟨pre, block, post, rfl, used, rfl⟩, eq_of_toNat_eq same⟩
  have split := ((List.perm_cons_erase held).map region).symm.trans
    (sound.live.trans (payloads_release used))
  rw [List.map_cons, place] at split
  rw [payloads_coalesce]
  exact split.cons_inv

theorem free_returns (member : allocation ∈ heap.live) : (free heap.head heap.mem allocation.1).isSome := by
  have room := sound.room
  obtain ⟨block, held, used, place⟩ := live_block sound member
  obtain ⟨pre, post, shape⟩ := List.append_of_mem held
  rw [List.append_cons] at shape
  subst shape
  obtain ⟨_, _, returned, _⟩ := free_spec sound.stored sound.layout (by omega) (congrArg Prod.fst place) used
  rw [returned]
  rfl

theorem expand_sound {amount : BitVec 64} (room : heap.limit + amount.toNat + 34 ≤ 2 ^ 64)
    (ran : expand heap.head heap.mem amount = some mem) :
    ∃ after, Sound { heap with mem := mem, limit := heap.limit + amount.toNat } after ∧
      Grows amount.toNat blocks after := by
  obtain ⟨front, tail, rfl, idle, _⟩ := sound.layout.last
  obtain ⟨after, returned, stored⟩ := expand_spec sound.stored sound.layout idle room
  rw [returned] at ran
  cases ran
  refine ⟨_, ⟨stored, layout_coalesce [] (layout_grow sound.layout idle), ?_, room⟩, front, tail, rfl, idle, rfl⟩
  rw [payloads_coalesce, payloads_grow idle]
  exact sound.live

theorem store_sound {pointer : Addr} {size : BitVec 64}
    (held : (pointer, size) ∈ heap.live) (inside : offset + count ≤ size.toNat) : Sound { heap with
      mem := write heap.mem (pointer + BitVec.ofNat 64 offset) count bytes } blocks where
  stored := by
    refine segment_frame ?_ sound.stored
    intro block member chunk position
    have room := sound.room
    have bound := layout_addr sound.layout member
    obtain ⟨owner, owned, used, place⟩ := live_block sound held
    have ends := payload_inside sound.layout owned used
    simp only [region, Prod.mk.injEq] at place
    have spot : (pointer + BitVec.ofNat 64 offset).toNat = pointer.toNat + offset := offset_place (by omega)
    refine header_write ?_
    rcases header_clear sound.layout owned member with below | above
    · exact apart_of_le_left (by omega) (by omega)
    · exact apart_of_le_right (by omega) (by omega)
  layout := sound.layout
  live := sound.live
  room := sound.room

theorem step_sound (step : Step heap next) : next.head = heap.head ∧ ∃ blocks, Sound next blocks := by
  cases step with
  | allocate size request ran =>
    obtain ⟨after, sound, _⟩ := allocate_sound sound request ran
    exact ⟨rfl, after, sound⟩
  | free held ran =>
    obtain ⟨after, sound, _⟩ := free_sound sound held ran
    exact ⟨rfl, after, sound⟩
  | expand amount room ran =>
    obtain ⟨after, sound, _⟩ := expand_sound sound room ran
    exact ⟨rfl, after, sound⟩
  | store held offset count bytes inside => exact ⟨rfl, blocks, store_sound sound held inside⟩

end Calls

end Steps

theorem null_allocate (null : head = 0) (size : BitVec 64) : allocate head mem size = some (0, mem) := by
  rw [allocate]
  split
  · rfl
  · exact iterate_leave (by rw [allocateTurn, if_pos null]) (by decide)

/-- A heap placed at the null address hands nothing out: its head reads as the
empty list. -/
theorem null_step (null : heap.head = 0 ∧ heap.live = []) (step : Step heap next) :
    next.head = 0 ∧ next.live = [] := by
  obtain ⟨head, live⟩ := null
  cases step with
  | allocate size request ran =>
    rw [null_allocate head] at ran
    cases ran
    exact ⟨head, live⟩
  | free held ran => rw [live] at held; cases held
  | expand amount room ran => exact ⟨head, live⟩
  | store held offset count bytes inside => rw [live] at held; cases held

theorem null_run (null : start = 0) (run : Run (boot mem start finish) heap) : heap.head = 0 ∧ heap.live = [] := by
  induction run with
  | refl => exact ⟨null, rfl⟩
  | tail _ step ih => exact null_step ih step

section Runs
variable (present : start ≠ 0) (order : start.toNat ≤ finish.toNat) (room : finish.toNat + 34 ≤ 2 ^ 64)
  (run : Run (boot mem start finish) heap)
include present order room run

theorem run_sound : heap.head = start ∧ ∃ blocks, Sound heap blocks := by
  induction run with
  | refl => exact ⟨rfl, _, boot_sound mem present order room⟩
  | tail _ step ih =>
    obtain ⟨same, blocks, sound⟩ := ih
    obtain ⟨kept, after⟩ := step_sound sound step
    exact ⟨kept.trans same, after⟩

/-- No call of a heap in use can fail to return. -/
theorem operations_return : (∀ size : BitVec 64, 17 + size.toNat < 2 ^ 64 →
      (allocate heap.head heap.mem size).isSome) ∧
    (∀ allocation ∈ heap.live, (free heap.head heap.mem allocation.1).isSome) ∧
    (∀ amount : BitVec 64, heap.limit + amount.toNat + 34 ≤ 2 ^ 64 → (expand heap.head heap.mem amount).isSome) := by
  obtain ⟨_, blocks, sound⟩ := run_sound present order room run
  have room := sound.room
  refine ⟨?_, ?_, ?_⟩
  · intro size request
    by_cases zero : size = 0
    · rw [allocate, if_pos zero]; rfl
    · rcases allocate_spec sound.stored sound.layout (by omega) zero request with
        ⟨missed, _⟩ | ⟨_, _, _, _, _, _, _, _, found, _⟩
      · rw [missed]; rfl
      · rw [found]; rfl
  · exact fun allocation member => free_returns sound member
  · intro amount grown
    obtain ⟨front, tail, rfl, idle, _⟩ := sound.layout.last
    obtain ⟨_, returned, _⟩ := expand_spec sound.stored sound.layout idle grown
    rw [returned]; rfl

end Runs

/-- **Kernel heap safety.** In every state reached from `init` by allocations,
frees of live pointers, growth and the owners' own stores, live payloads are
pairwise disjoint, meet no header of a listed chunk, and stay in the area. -/
theorem heap_safe (mem : Memory) (start finish : Addr) (order : start.toNat ≤ finish.toNat)
    (room : finish.toNat + 34 ≤ 2 ^ 64) (heap : Heap) (run : Run (boot mem start finish) heap) : Safe start heap := by
  by_cases null : start = 0
  · have idle := null_run null run
    refine ⟨by simp [idle.2], ?_, ?_⟩ <;> simp [idle.2]
  · obtain ⟨same, blocks, sound⟩ := run_sound null order room run
    rw [← same]
    exact sound_safe sound

/-- A first chunk that is large enough is taken. -/
theorem allocate_granted {mem : Memory} {head next : Addr} (present : head ≠ 0) (pos : size ≠ 0)
    (recorded : header mem head = ⟨next, false, extent⟩) (fits : sizeofChunkHeader + size ≤ extent) :
    allocate head mem size = some (head + sizeofChunkHeader, split mem head size) := by
  rw [allocate, if_neg pos]
  apply iterate_leave ?_ (by decide)
  rw [allocateTurn, if_neg present, recorded]
  simp [fits]

/-- `K_CONST_HEAP_DEFAULT_START` and `K_CONST_HEAP_DEFAULT_END`, the area the kernel
boots with; `heapExpand` keeps it below `K_CONST_HEAP_MAX_EXPANSION`. -/
def heapDefaultStart : Addr := 0xFFFF800100100000
def heapDefaultEnd : Addr := 0xFFFF800100200000

/-- The heap the kernel boots with after two requests, when the first is freed again. -/
theorem default_run : ∃ heap, Run (boot (fun _ => 0) heapDefaultStart heapDefaultEnd) heap ∧
    heap.live = [(heapDefaultStart + 50, 32)] := by
  have ran : ((allocate heapDefaultStart (init (fun _ => 0) heapDefaultStart heapDefaultEnd) 16).bind fun first =>
      (allocate heapDefaultStart first.2 32).bind fun second =>
        (free heapDefaultStart second.2 first.1).map fun _ => (first.1, second.1)) =
      some (heapDefaultStart + 17, heapDefaultStart + 50) := by decide +kernel
  obtain ⟨⟨first, early⟩, taken, ran⟩ := Option.bind_eq_some_iff.mp ran
  obtain ⟨⟨second, late⟩, again, ran⟩ := Option.bind_eq_some_iff.mp ran
  obtain ⟨⟨freed, mem⟩, released, same⟩ := Option.map_eq_some_iff.mp ran
  obtain ⟨rfl, rfl⟩ := Prod.mk.inj same
  have run : Run (boot (fun _ => 0) heapDefaultStart heapDefaultEnd) _ := .single (.allocate 16 (by decide) taken)
  have run := run.tail (.allocate 32 (by decide) again)
  have held : (heapDefaultStart + 17, 16) ∈ [(heapDefaultStart + 50, (32 : BitVec 64)), (heapDefaultStart + 17, 16)] := by
    simp
  exact ⟨_, run.tail (.free held released), rfl⟩

theorem heap_safe_default : ∃ heap, Run (boot (fun _ => 0) heapDefaultStart heapDefaultEnd) heap ∧
    heap.live = [(heapDefaultStart + 50, 32)] ∧ Safe heapDefaultStart heap := by
  obtain ⟨heap, run, live⟩ := default_run
  exact ⟨heap, run, live, heap_safe _ _ _ (by decide) (by decide) _ run⟩

theorem operations_return_default : ∃ heap, Run (boot (fun _ => 0) heapDefaultStart heapDefaultEnd) heap ∧
    (allocate heap.head heap.mem 8).isSome ∧ (free heap.head heap.mem (heapDefaultStart + 50)).isSome := by
  obtain ⟨heap, run, live⟩ := default_run
  obtain ⟨allocates, frees, _⟩ := operations_return (by decide) (by decide) (by decide) run
  exact ⟨heap, run, allocates 8 (by decide), frees (heapDefaultStart + 50, 32) (by simp [live])⟩

end LunaOS.FreelistSafety
