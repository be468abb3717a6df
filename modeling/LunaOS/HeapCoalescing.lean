import LunaOS.HeapConservation

/-! Merging in the kernel heap is complete, also over lists of chunks the heap never has. Over
its states no two unused chunks follow each other, and the last chunk is unused. -/
namespace LunaOS.HeapCoalescing
open Coalescing ByteMemory FreelistAllocator ChunkMerging FreelistLayout FreelistSafety
  HeapConservation

section Merging
variable {mem : Memory} {head : Addr} {chunks : List Addr}

/-! ## Sizes -/

/-- The chunks in use, with their places and sizes. -/
def inUse (mem : Memory) (chunks : List Addr) : List Chunk := (chunks.map (recorded mem)).filter Chunk.used

def sizes (mem : Memory) (chunks : List Addr) : List (BitVec 64) := chunks.map fun chunk => (header mem chunk).size

/-- What `mergeChunks` makes of a list of chunks. -/
structure Merges (mem : Memory) (head : Addr) (chunks : List Addr) (merged : Memory) (left : List Addr) : Prop where
  returned : mergeChunks head mem = some merged
  list : ChunkList merged head left
  complete : Settled Chunk.used (left.map (recorded merged))
  inUse : inUse merged left = inUse mem chunks
  sum : (sizes merged left).sum = (sizes mem chunks).sum
  natural : ((sizes mem chunks).map BitVec.toNat).sum < 2 ^ 64 →
    ((sizes merged left).map BitVec.toNat).sum = ((sizes mem chunks).map BitVec.toNat).sum
  idempotent : mergeChunks head merged = some merged

theorem sum_toNat (values : List (BitVec 64)) : values.sum.toNat = (values.map BitVec.toNat).sum % 2 ^ 64 := by
  induction values with
  | nil => rfl
  | cons value values ih => rw [List.sum_cons, BitVec.toNat_add, ih, List.map_cons, List.sum_cons, Nat.add_mod_mod]

/-- Sizes that wrap around do not become more. -/
theorem merge_natural_le (pieces : List Chunk) :
    ((merge Chunk.used join pieces).map fun piece => piece.size.toNat).sum ≤
      (pieces.map fun piece => piece.size.toNat).sum := by
  fun_induction merge Chunk.used join pieces with
  | case1 => exact Nat.le_refl _
  | case2 piece => exact Nat.le_refl _
  | case3 first second rest idle ih =>
    refine Nat.le_trans ih ?_
    have wrapped : (join first second).size.toNat ≤ first.size.toNat + second.size.toNat := by
      exact Nat.mod_le _ _
    simp only [List.map_cons, List.sum_cons]
    omega
  | case4 first second rest busy ih =>
    simp only [List.map_cons, List.sum_cons] at ih ⊢
    omega

theorem sizes_eq (mem : Memory) (chunks : List Addr) :
    sizes mem chunks = (chunks.map (recorded mem)).map Chunk.size := by
  rw [List.map_map]
  rfl

theorem naturals_eq (mem : Memory) (chunks : List Addr) :
    (sizes mem chunks).map BitVec.toNat = (chunks.map (recorded mem)).map fun piece => piece.size.toNat := by
  rw [sizes_eq, List.map_map]
  rfl

theorem mergeChunks_merges (list : ChunkList mem head chunks) : ∃ merged left, Merges mem head chunks merged left := by
  obtain ⟨merged, left, ran, kept, records, _⟩ :=
    merge_linked (show ChunkList mem head ([] ++ chunks) from list) list.length_lt
  rw [list.head_eq] at ran
  rw [List.nil_append] at kept
  have complete : Settled Chunk.used (left.map (recorded merged)) := by
    rw [records]
    exact merge_settled join_used _
  have sum : (sizes merged left).sum = (sizes mem chunks).sum := by
    rw [sizes_eq, sizes_eq, records]
    exact merge_weight Chunk.size (fun _ _ => rfl) _
  refine ⟨merged, left, ran, kept, complete, ?_, sum, fun small => ?_, ?_⟩
  · rw [inUse, inUse, records, merge_filter join_used]
  · have least := merge_natural_le (chunks.map (recorded mem))
    rw [← records, ← naturals_eq, ← naturals_eq] at least
    have same := congrArg BitVec.toNat sum
    rwa [sum_toNat, sum_toNat, Nat.mod_eq_of_lt small, Nat.mod_eq_of_lt (Nat.lt_of_le_of_lt least small)] at same
  · have walked := merge_walks (show ChunkList merged head ([] ++ left) from kept) complete kept.length_lt
    rwa [kept.head_eq] at walked

end Merging

/-! ## The states of the heap -/

section Runs
variable {mem : Memory} {start finish : Addr} {heap next : Heap} {blocks : List Block}

/-- No unused chunk is followed by another, and the last chunk is unused. -/
structure Coalesced (heap : Heap) : Prop where
  followed : ∀ chunk, Reachable heap.mem heap.head chunk → (header heap.mem chunk).next ≠ 0 →
    (header heap.mem chunk).used = true ∨ (header heap.mem (header heap.mem chunk).next).used = true
  last : ∀ chunk, Reachable heap.mem heap.head chunk → (header heap.mem chunk).next = 0 →
    (header heap.mem chunk).used = false

theorem step_merged (sound : Sound heap blocks) (merged : Settled Block.used blocks) (step : Step heap next) :
    ∃ after, Sound next after ∧ Settled Block.used after := by
  cases step with
  | allocate size request ran =>
    obtain ⟨after, kept, ⟨_, rfl⟩ | ⟨_, carves⟩⟩ := allocate_sound sound request ran
    · exact ⟨after, kept, merged⟩
    · exact ⟨after, kept, carves_settled merged carves⟩
  | free held ran =>
    obtain ⟨after, kept, ⟨pre, block, post, _, _, rfl⟩, _⟩ := free_sound sound held ran
    exact ⟨_, kept, settled_coalesce _⟩
  | expand amount room ran =>
    obtain ⟨after, kept, front, tail, _, _, rfl⟩ := expand_sound sound room ran
    exact ⟨_, kept, settled_coalesce _⟩
  | store held offset count bytes inside => exact ⟨blocks, store_sound sound held inside, merged⟩

theorem run_merged (present : start ≠ 0) (order : start.toNat ≤ finish.toNat) (room : finish.toNat + 34 ≤ 2 ^ 64)
    (run : Run (boot mem start finish) heap) : ∃ blocks, Sound heap blocks ∧ Settled Block.used blocks := by
  induction run with
  | refl => exact ⟨_, boot_sound mem present order room, .singleton _⟩
  | tail _ step ih =>
    obtain ⟨blocks, sound, merged⟩ := ih
    exact step_merged sound merged step

theorem sound_coalesced (sound : Sound heap blocks) (merged : Settled Block.used blocks) : Coalesced heap where
  followed chunk reached more := by
    obtain ⟨pre, block, post, rfl, records, tail⟩ := reachable_recorded sound.stored reached
    cases post with
    | nil => exact absurd tail more
    | cons second post =>
      have beside := (List.isChain_cons_cons.mp (List.isChain_append.mp merged).2.1).1
      rwa [← records.flag, ← tail.1.flag] at beside
  last chunk reached ended := by
    obtain ⟨pre, block, post, rfl, records, tail⟩ := reachable_recorded sound.stored reached
    obtain ⟨front, final, shape, idle, _⟩ := sound.layout.last
    cases post with
    | nil =>
      have same := (List.append_inj' shape rfl).2
      rw [records.flag, (List.cons.inj same).1, idle]
    | cons second post => exact absurd ended tail.1.present

theorem null_coalesced (null : heap.head = 0) : Coalesced heap where
  followed _ reached := absurd reached (null_unreachable null)
  last _ reached := absurd reached (null_unreachable null)

end Runs

/-- **Merging is complete.** Every state of the heap is merged, and `mergeChunks` on any list of
chunks returns, keeps the chunks in use and the sum of the sizes, and changes nothing
when it runs again. -/
theorem heap_coalesced :
    (∀ (mem : Memory) (start finish : Addr), start.toNat ≤ finish.toNat → finish.toNat + 34 ≤ 2 ^ 64 →
      ∀ heap, Run (boot mem start finish) heap → Coalesced heap) ∧
    ∀ (mem : Memory) (head : Addr) (chunks : List Addr), ChunkList mem head chunks →
      ∃ merged left, Merges mem head chunks merged left := by
  refine ⟨fun mem start finish order room heap run => ?_, fun mem head chunks => mergeChunks_merges⟩
  by_cases null : start = 0
  · exact null_coalesced (null_run null run).1
  · obtain ⟨blocks, sound, merged⟩ := run_merged null order room run
    exact sound_coalesced sound merged

/-- Two unused chunks beside each other, as no state of the heap has them. -/
def twoUnused : Memory :=
  let mem := setNext (setSize (fun _ => 0) 0x1000 40) 0x1000 0x1040
  setNext (setSize mem 0x1040 23) 0x1040 0

theorem twoUnused_list : ChunkList twoUnused 0x1000 [0x1000, 0x1040] := by
  have below : Apart 0x1000 17 0x1040 17 := apart_of_le_left (by decide) (by decide)
  have above : Apart 0x1040 17 0x1000 17 := apart_of_le_right (by decide) (by decide)
  refine ⟨⟨rfl, by decide, ?_, by decide, ?_⟩, by decide, ?_⟩
  · rw [twoUnused, header_setNext_apart below, header_setSize_apart below, header_setNext]
  · rw [twoUnused, header_setNext]
    rfl
  · intro first member second member' distinct
    simp only [List.mem_cons, List.not_mem_nil, or_false] at member member'
    rcases member with rfl | rfl <;> rcases member' with rfl | rfl
    · exact absurd rfl distinct
    · exact below
    · exact above
    · exact absurd rfl distinct

theorem heap_coalesced_default : (∃ heap, Run (boot (fun _ => 0) heapDefaultStart heapDefaultEnd) heap ∧
      heap.live = [(heapDefaultStart + 50, 32)] ∧ Coalesced heap) ∧
    ∃ merged left, Merges twoUnused 0x1000 [0x1000, 0x1040] merged left := by
  obtain ⟨heap, run, live⟩ := default_run
  exact ⟨⟨heap, run, live, heap_coalesced.1 _ _ _ (by decide) (by decide) _ run⟩,
    heap_coalesced.2 _ _ _ twoUnused_list⟩

end LunaOS.HeapCoalescing
