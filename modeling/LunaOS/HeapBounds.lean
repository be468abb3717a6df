import LunaOS.FreelistSafety

/-! Requests of any size and the headers of the kernel heap. The test of `allocate` adds
the header to the size before it compares, and wraps for the last 17 sizes. A split
writes the header of the remainder even when nothing remains: at the last chunk that
header can stand behind the end of the area. -/
namespace LunaOS.HeapBounds
open ByteMemory BoundedLoop FreelistAllocator ChunkMerging FreelistLayout FreelistRefinement FreelistSafety

/-! ## Requests of any size -/

/-- The call returns nothing and changes nothing, or memory of a chunk that was unused. -/
def RequestSafe (heap : Heap) (size : BitVec 64) : Prop :=
  ∃ pointer mem, allocate heap.head heap.mem size = some (pointer, mem) ∧ if pointer = 0 then mem = heap.mem
    else pointer.toNat + size.toNat < 2 ^ 64 ∧
      ∃ chunk, Reachable heap.mem heap.head chunk ∧ (header heap.mem chunk).used = false ∧
        chunk.toNat + 17 ≤ pointer.toNat ∧
        pointer.toNat + size.toNat ≤ chunk.toNat + (header heap.mem chunk).size.toNat

theorem reachable_onward (reached : Reachable mem head curr) (stored : Segment mem curr blocks chunk)
    (present : chunk ≠ 0) : Reachable mem head chunk := by
  induction blocks generalizing curr with
  | nil =>
    cases show curr = chunk from stored
    exact reached
  | cons block rest ih =>
    obtain ⟨_, tail⟩ := stored
    refine ih (.next reached ?_) tail
    cases rest with
    | nil =>
      rw [show (header mem curr).next = chunk from tail]
      exact present
    | cons second rest => exact tail.1.present

theorem segment_reachable (stored : Segment mem head blocks chunk) (present : chunk ≠ 0) :
    Reachable mem head chunk := by
  cases blocks with
  | nil =>
    cases show head = chunk from stored
    exact .head present
  | cons block rest => exact reachable_onward (.head stored.1.present) stored present

theorem wrapped_sum {size : BitVec 64} (wraps : ¬ 17 + size.toNat < 2 ^ 64) :
    (sizeofChunkHeader + size).toNat + 2 ^ 64 = 17 + size.toNat := by
  simp only [sizeofChunkHeader]
  bv_omega

/-- In a heap in use, a request is safe unless its size wraps and some chunk passes the test. -/
theorem sound_safe_iff (sound : Sound heap blocks) (size : BitVec 64) :
    RequestSafe heap size ↔ 17 + size.toNat < 2 ^ 64 ∨
      ∀ chunk, Reachable heap.mem heap.head chunk → (header heap.mem chunk).used = false →
        (header heap.mem chunk).size.toNat + 2 ^ 64 < 17 + size.toNat := by
  have room := sound.room
  by_cases zero : size = 0
  · subst zero
    refine iff_of_true ⟨0, heap.mem, ?_, ?_⟩ (.inl (by decide))
    · rw [allocate, if_pos rfl]
    · rw [if_pos rfl]
  rcases allocate_finds sound.stored (layout_length sound.layout (by omega)) zero with
    ⟨missed, full⟩ | ⟨pre, block, post, curr, rfl, _, taken, before, recorded, _, found⟩
  · refine iff_of_true ⟨0, heap.mem, missed, by rw [if_pos rfl]⟩ ?_
    by_cases wraps : 17 + size.toNat < 2 ^ 64
    · exact .inl wraps
    · refine .inr fun chunk reached idle => ?_
      obtain ⟨_, other, _, rfl, recorded, _⟩ := reachable_recorded sound.stored reached
      have small : ¬ Takes size other := full other (by simp)
      have sum := wrapped_sum wraps
      have extent := recorded.extent
      have unused := recorded.flag.symm.trans idle
      simp only [Takes, unused, true_and] at small
      omega
  · have position := recorded.position
    have extent := recorded.extent
    have inside := layout_inside sound.layout (show block ∈ _ by simp)
    have place : (curr + sizeofChunkHeader).toNat = curr.toNat + 17 := payload_place (by omega)
    have present : curr + sizeofChunkHeader ≠ 0 := present_of_pos (by omega)
    have reached := segment_reachable before recorded.present
    have idle := recorded.flag.trans taken.1
    by_cases fits : 17 + size.toNat < 2 ^ 64
    · have large := ((takes_iff_fits fits).mp taken).2
      refine iff_of_true ⟨_, _, found, ?_⟩ (.inl fits)
      rw [if_neg present]
      exact ⟨by omega, curr, reached, idle, by omega, by omega⟩
    · have sum := wrapped_sum fits
      have large := taken.2
      refine iff_of_false ?_ ?_
      · rintro ⟨pointer, mem, ran, safe⟩
        rw [found] at ran
        cases ran
        rw [if_neg present] at safe
        omega
      · rintro (small | full)
        · exact fits small
        · have few := full curr reached idle
          omega

/-- In every state of the heap, a request is safe exactly when the sum of the header and
the size does not wrap, or no unused chunk is as large as the sum that wrapped. -/
theorem request_safe_iff (mem : Memory) (start finish : Addr) (order : start.toNat ≤ finish.toNat)
    (room : finish.toNat + 34 ≤ 2 ^ 64) (heap : Heap) (run : Run (boot mem start finish) heap) (size : BitVec 64) :
    RequestSafe heap size ↔ 17 + size.toNat < 2 ^ 64 ∨
      ∀ chunk, Reachable heap.mem heap.head chunk → (header heap.mem chunk).used = false →
        (header heap.mem chunk).size.toNat + 2 ^ 64 < 17 + size.toNat := by
  by_cases null : start = 0
  · have idle := null_run null run
    refine iff_of_true ⟨0, heap.mem, null_allocate idle.1 size, by rw [if_pos rfl]⟩ (.inr ?_)
    exact fun chunk reached => absurd reached (null_unreachable idle.1)
  · obtain ⟨_, blocks, sound⟩ := run_sound null order room run
    exact sound_safe_iff sound size

/-- The kernel's heap as it boots. -/
def defaultHeap : Heap := boot (fun _ => 0) heapDefaultStart heapDefaultEnd

theorem defaultHeap_header : header defaultHeap.mem heapDefaultStart = ⟨0, false, 0x100000⟩ := by
  simp [defaultHeap, boot, init, heapDefaultStart, heapDefaultEnd]

theorem request_safe_iff_default : RequestSafe defaultHeap 16 :=
  (request_safe_iff (fun _ => 0) heapDefaultStart heapDefaultEnd (by decide) (by decide) defaultHeap .refl 16).mpr
    (.inl (by decide))

/-- The request for 2⁶⁴ - 17 bytes is granted by the first heap of the kernel. -/
theorem wrapping_request_granted :
    ∃ pointer mem, allocate defaultHeap.head defaultHeap.mem 0xFFFFFFFFFFFFFFEF = some (pointer, mem) ∧
      pointer = heapDefaultStart + 17 ∧ ¬ pointer.toNat + (0xFFFFFFFFFFFFFFEF : BitVec 64).toNat < 2 ^ 64 :=
  ⟨_, _, allocate_granted (by decide) (by decide) defaultHeap_header (by decide), rfl, by decide⟩

/-! ## Headers -/

/-- The header of the chunk lies in the area. -/
def Inside (start : Addr) (limit : Nat) (chunk : Addr) : Prop :=
  start.toNat ≤ chunk.toNat ∧ chunk.toNat + 17 ≤ limit

/-- The headers `init` writes. -/
def initWrites (start : Addr) : List Addr := [start]

/-- The headers a turn of `allocate` writes: those of the remainder and of the chunk it takes. -/
def allocateTurnWrites (mem : Memory) (size : BitVec 64) (curr : Addr) : List Addr :=
  if curr = 0 then []
  else if !(header mem curr).used && sizeofChunkHeader + size ≤ (header mem curr).size then
    [curr + sizeofChunkHeader + size, curr]
  else []

def allocateWrites (head : Addr) (mem : Memory) (size : BitVec 64) : List Addr :=
  if size = 0 then []
  else (visits (allocateTurn mem size) maxTurns head).flatMap (allocateTurnWrites mem size)

/-- The header a turn of `mergeChunks` writes, if any. -/
def mergeTurnWrites (state : Memory × Addr) : List Addr :=
  let (mem, curr) := state
  if curr = 0 ∨ (header mem curr).next = 0 then []
  else if !(header mem curr).used && !(header mem (header mem curr).next).used then [curr]
  else []

def mergeWrites (head : Addr) (mem : Memory) : List Addr :=
  (visits mergeTurn maxTurns (mem, head)).flatMap mergeTurnWrites

/-- The headers `expand` writes: that of the new chunk, that of the last one, and those of the merge. -/
def expandWrites (head : Addr) (mem : Memory) (amount : BitVec 64) : List Addr :=
  match iterate (tailTurn mem) maxTurns head with
  | none => []
  | some tail =>
    (tail + sizeofChunkHeader + (header mem tail).size) :: tail :: mergeWrites head (linkChunk mem tail amount)

/-! A byte outside the headers listed is not written. -/

/-- The byte lies in none of the headers. -/
def Outside (chunks : List Addr) (address : Addr) : Prop := ∀ chunk ∈ chunks, 17 ≤ (address - chunk).toNat

section Stores
variable {mem : Memory} {chunk address : Addr} (outside : 17 ≤ (address - chunk).toNat)
include outside

theorem setNext_outside : setNext mem chunk next address = mem address := by
  rw [setNext, store64, write_of_le (by omega)]

theorem setUsed_outside : setUsed mem chunk used address = mem address := by
  rw [setUsed, store8, write_of_le (by bv_omega)]

theorem setSize_outside : setSize mem chunk size address = mem address := by
  rw [setSize, store64, write_of_le (by bv_omega)]

end Stores

theorem init_writes_only (mem : Memory) (start finish : Addr) (outside : Outside (initWrites start) address) :
    init mem start finish address = mem address := by
  have away := outside start (by simp [initWrites])
  rw [init, setNext_outside away, setSize_outside away, setUsed_outside away]

theorem split_outside {curr : Addr} {size : BitVec 64} (here : 17 ≤ (address - curr).toNat)
    (there : 17 ≤ (address - (curr + sizeofChunkHeader + size)).toNat) :
    split mem curr size address = mem address := by
  simp only [split, setSize_outside here, setUsed_outside here, setNext_outside here, setNext_outside there,
    setUsed_outside there, setSize_outside there]

theorem allocateTurn_again_writes (asked : allocateTurn mem size curr = .again next) :
    allocateTurnWrites mem size curr = [] := by
  unfold allocateTurn at asked
  unfold allocateTurnWrites
  split at asked
  · cases asked
  · split at asked
    · cases asked
    · rename_i present misses
      rw [if_neg present, if_neg misses]

/-- Only the turn that takes a chunk writes. -/
theorem allocateWrites_last {size : BitVec 64} (pos : size ≠ 0) (ran : allocate head mem size = some result) :
    ∃ last, allocateTurn mem size last = .leave result ∧
      allocateWrites head mem size = allocateTurnWrites mem size last := by
  rw [allocate, if_neg pos] at ran
  obtain ⟨front, last, shape, left, early⟩ := visits_last ran
  refine ⟨last, left, ?_⟩
  have silent : front.flatMap (allocateTurnWrites mem size) = [] := by
    apply List.flatMap_eq_nil_iff.mpr
    intro curr member
    obtain ⟨next, asked⟩ := early curr member
    exact allocateTurn_again_writes asked
  rw [allocateWrites, if_neg pos, shape, List.flatMap_append, silent]
  simp

theorem allocate_writes_only {size : BitVec 64} (ran : allocate head mem size = some (pointer, after))
    (outside : Outside (allocateWrites head mem size) address) : after address = mem address := by
  by_cases zero : size = 0
  · rw [allocate, if_pos zero] at ran
    cases ran
    rfl
  · obtain ⟨last, left, listed⟩ := allocateWrites_last zero ran
    rw [listed, allocateTurnWrites] at outside
    rw [allocateTurn] at left
    split at left
    · cases left
      rfl
    · split at left
      · rename_i present takes
        rw [if_neg present, if_pos takes] at outside
        cases left
        exact split_outside (outside last (by simp)) (outside _ (by simp))
      · cases left

theorem mergeTurn_writes_only (outside : Outside (mergeTurnWrites (mem, curr)) address)
    (asked : mergeTurn (mem, curr) = .again next) : next.1 address = mem address := by
  simp only [mergeTurn] at asked
  simp only [mergeTurnWrites] at outside
  split at asked
  · cases asked
  · split at asked
    · cases asked
    · rename_i present more
      rw [if_neg (not_or.mpr ⟨present, more⟩)] at outside
      split at asked
      · rename_i both
        rw [if_pos both] at outside
        cases asked
        have away := outside curr (by simp)
        exact (setNext_outside away).trans (setSize_outside away)
      · cases asked
        rfl

theorem mergeTurn_leaves (left : mergeTurn state = .leave result) : result = state.1 := by
  simp only [mergeTurn] at left
  split at left
  · cases left
    rfl
  · split at left
    · cases left
      rfl
    · split at left <;> cases left

theorem mergeChunks_writes_only (ran : mergeChunks head mem = some after)
    (outside : Outside (mergeWrites head mem) address) : after address = mem address := by
  refine iterate_keeps (fun state : Memory × Addr => state.1 address) (fun result => result address) ?_ ?_ ran
  · intro visited member next asked
    refine mergeTurn_writes_only (fun chunk listed => ?_) asked
    exact outside chunk (List.mem_flatMap.mpr ⟨visited, member, listed⟩)
  · intro visited _ result left
    rw [mergeTurn_leaves left]

theorem expand_writes_only {amount : BitVec 64} (ran : expand head mem amount = some after)
    (outside : Outside (expandWrites head mem amount) address) : after address = mem address := by
  cases found : iterate (tailTurn mem) maxTurns head with
  | none => simp [expand, found] at ran
  | some tail =>
    rw [expand_eq found] at ran
    simp only [expandWrites, found] at outside
    have linked := mergeChunks_writes_only ran fun chunk listed => outside chunk (by simp [listed])
    have here := outside tail (by simp)
    have there := outside _ List.mem_cons_self
    rw [linked, linkChunk, setNext_outside here, setUsed_outside there, setSize_outside there, setNext_outside there]

/-- The first unused chunk that holds the request leaves room for a header behind it, before
the end of the area. -/
def SplitFits (heap : Heap) (size : BitVec 64) : Prop :=
  size = 0 ∨ ∀ blocks block, Segment heap.mem heap.head blocks 0 →
    blocks.find? (fun block => decide (Fits size.toNat block)) = some block → block.addr + 34 + size.toNat ≤ heap.limit

/-- A header behind what the last chunk records lies in the area that has grown. -/
def GrowthFits (heap : Heap) (amount : BitVec 64) : Prop :=
  ∀ tail, Reachable heap.mem heap.head tail → (header heap.mem tail).next = 0 →
    tail.toNat + 34 + (header heap.mem tail).size.toNat ≤ heap.limit + amount.toNat

/-- The steps of a heap with room for every header. -/
inductive CarefulStep (heap : Heap) : Heap → Prop where
  | allocate (size : BitVec 64) (request : sizeofChunkHeader.toNat + size.toNat < 2 ^ 64)
      (fits : SplitFits heap size) (ran : allocate heap.head heap.mem size = some (pointer, mem)) :
      CarefulStep heap { heap with
        mem := mem
        live := if pointer = 0 then heap.live else (pointer, size) :: heap.live }
  | free (held : (pointer, size) ∈ heap.live)
      (ran : free heap.head heap.mem pointer = some (freed, mem)) :
      CarefulStep heap { heap with mem := mem, live := heap.live.erase (pointer, size) }
  | expand (amount : BitVec 64) (room : heap.limit + amount.toNat + 34 ≤ 2 ^ 64) (fits : GrowthFits heap amount)
      (ran : expand heap.head heap.mem amount = some mem) :
      CarefulStep heap { heap with mem := mem, limit := heap.limit + amount.toNat }
  | store (held : (pointer, size) ∈ heap.live) (offset count : Nat) (bytes : Nat → Byte)
      (inside : offset + count ≤ size.toNat) :
      CarefulStep heap { heap with
        mem := write heap.mem (pointer + BitVec.ofNat 64 offset) count bytes }

abbrev CarefulRun := Relation.ReflTransGen CarefulStep

/-- The invariant of careful runs: every header of the list lies in the area. -/
structure Housed (heap : Heap) (blocks : List Block) : Prop extends Sound heap blocks where
  headers : ∀ block ∈ blocks, block.addr + 17 ≤ heap.limit

section Calls
variable {heap : Heap} {blocks : List Block}

theorem Housed.inside (housed : Housed heap blocks) (member : block ∈ blocks) {chunk : Addr}
    (place : chunk.toNat = block.addr) : Inside heap.head heap.limit chunk := by
  have low := head_lowest housed.stored housed.layout member
  have high := housed.headers block member
  exact ⟨by omega, by omega⟩

theorem next_null_iff (after : Segment mem next post 0) : next = 0 ↔ post = [] := by
  cases post with
  | nil => exact iff_of_true after rfl
  | cons block rest => exact iff_of_false after.1.present (by simp)

/-- The search only visits chunks of the list and the null behind them. -/
theorem allocate_visits (stored : Segment mem head blocks 0) : ∀ visited ∈ visits (allocateTurn mem size) turns head,
      ∃ rest, Segment mem visited rest 0 ∧ ∀ block ∈ rest, block ∈ blocks := by
  refine visits_invariant (fun visited => ∃ rest, Segment mem visited rest 0 ∧ ∀ block ∈ rest, block ∈ blocks)
    ?_ ⟨blocks, stored, fun _ => id⟩
  rintro curr next ⟨rest, stored, listed⟩ asked
  unfold allocateTurn at asked
  split at asked
  · cases asked
  · rename_i present
    split at asked
    · cases asked
    · cases asked
      cases rest with
      | nil => exact absurd stored present
      | cons block rest => exact ⟨rest, stored.2, fun other member => listed other (by simp [member])⟩

/-- A call of `allocate` in terms of the chunks: it takes none, or the first that holds the request. -/
theorem allocate_room {size : BitVec 64} (sound : Sound heap blocks) (request : 17 + size.toNat < 2 ^ 64) :
    (allocateWrites heap.head heap.mem size = [] ∧ SplitFits heap size) ∨
      ∃ pre block post curr, blocks = pre ++ [block] ++ post ∧ curr.toNat = block.addr ∧
        17 + size.toNat ≤ block.size ∧
        allocateWrites heap.head heap.mem size = [curr + sizeofChunkHeader + size, curr] ∧
        (SplitFits heap size ↔ block.addr + 34 + size.toNat ≤ heap.limit) := by
  have room := sound.room
  by_cases zero : size = 0
  · exact .inl ⟨by rw [allocateWrites, if_pos zero], .inl zero⟩
  rcases allocate_finds sound.stored (layout_length sound.layout (by omega)) zero with
    ⟨missed, full⟩ | ⟨pre, block, post, curr, rfl, chosen, taken, before, recorded, after, found⟩
  · refine .inl ⟨?_, .inr fun others block stored first => ?_⟩
    · rw [allocateWrites, if_neg zero]
      apply List.flatMap_eq_nil_iff.mpr
      intro visited member
      obtain ⟨rest, stored, listed⟩ := allocate_visits sound.stored visited member
      unfold allocateTurnWrites
      cases rest with
      | nil => rw [if_pos (show visited = 0 from stored)]
      | cons block rest =>
        have misses := mt (takes_iff stored.1).mp (full block (listed block (by simp)))
        rw [if_neg stored.1.present, if_neg misses]
    · cases segment_unique stored sound.stored
      have fits : Fits size.toNat block := by simpa using List.find?_some first
      exact absurd ((takes_iff_fits request).mpr fits) (full block (List.mem_of_find?_eq_some first))
  · have large := ((takes_iff_fits request).mp taken).2
    simp only [takes_iff_fits request] at chosen
    refine .inr ⟨pre, block, post, curr, rfl, recorded.position, large, ?_, ?_⟩
    · have bound := layout_addr sound.layout (show block ∈ _ by simp)
      have position := recorded.position
      have place : (curr + sizeofChunkHeader).toNat = curr.toNat + 17 := payload_place (by omega)
      have present : curr + sizeofChunkHeader ≠ 0 := present_of_pos (by omega)
      obtain ⟨last, left, listed⟩ := allocateWrites_last zero found
      rw [listed, allocateTurnWrites]
      rw [allocateTurn] at left
      split at left
      · injection left with same
        injection same with null
        exact absurd null.symm present
      · rename_i here
        split at left
        · rename_i takes
          injection left with same
          injection same with here'
          cases (BitVec.add_left_inj _).mp here'
          rw [if_neg here, if_pos takes]
        · cases left
    · constructor
      · rintro (empty | fits)
        · exact absurd empty zero
        · exact fits _ block sound.stored chosen
      · refine fun room => .inr fun others other stored first => ?_
        cases segment_unique stored sound.stored
        cases chosen.symm.trans first
        exact room

theorem allocate_inside_iff {size : BitVec 64} (housed : Housed heap blocks) (request : 17 + size.toNat < 2 ^ 64) :
    (∀ chunk ∈ allocateWrites heap.head heap.mem size, Inside heap.head heap.limit chunk) ↔ SplitFits heap size := by
  have room := housed.room
  rcases allocate_room housed.toSound request with
    ⟨silent, fits⟩ | ⟨pre, block, post, curr, rfl, position, large, listed, fits⟩
  · rw [silent]
    exact iff_of_true (by simp) fits
  · have extent := layout_inside housed.layout (show block ∈ _ by simp)
    have here := housed.inside (show block ∈ _ by simp) position
    have place : (curr + sizeofChunkHeader + size).toNat = curr.toNat + 17 + size.toNat := rest_place (by omega)
    rw [fits, listed]
    constructor
    · intro inside
      have high := (inside _ List.mem_cons_self).2
      omega
    · intro room chunk member
      have low := here.1
      rcases List.mem_cons.mp member with rfl | member
      · exact ⟨by omega, by omega⟩
      · rw [List.mem_singleton.mp member]
        exact here

/-- Merging only writes headers of the list. -/
theorem mergeWrites_listed (stored : Segment memory₀ head blocks 0) (layout : Layout limit blocks)
    (room : limit + 17 ≤ 2 ^ 64) :
    ∀ chunk ∈ mergeWrites head memory₀, ∃ block ∈ blocks, chunk.toNat = block.addr := by
  obtain ⟨chunks, linked, rfl⟩ := segment_iff.mp stored
  have list := chunkList_of_layout linked layout room
  -- where the loop stands, what is ahead are chunks of the list
  let holds (state : Memory × Addr) : Prop := ∃ pre rest, ChunkList state.1 head (pre ++ rest) ∧
    rest.headD 0 = state.2 ∧ rest ⊆ chunks
  have kept : ∀ state next, holds state → mergeTurn state = .again next → holds next := by
    rintro ⟨mem, curr⟩ next ⟨pre, rest, list, rfl, listed⟩ asked
    match rest with
    | [] => cases asked
    | [chunk] =>
      rw [List.headD_cons, mergeTurn_last list] at asked
      cases asked
    | first :: second :: others =>
      rw [List.headD_cons] at asked
      by_cases idle : (recorded mem first).used = false ∧ (recorded mem second).used = false
      · obtain ⟨turned, shorter⟩ := mergeTurn_joins list idle
        rw [turned] at asked
        cases asked
        exact ⟨pre, first :: others, shorter, rfl, fun part member => listed (by simp at member ⊢; tauto)⟩
      · rw [mergeTurn_goes list idle] at asked
        cases asked
        exact ⟨pre ++ [first], second :: others, by simpa using list, rfl, fun part member => listed (by simp [member])⟩
  intro chunk member
  obtain ⟨⟨mem, curr⟩, visited, written⟩ := List.mem_flatMap.mp member
  have start : holds (memory₀, head) := ⟨[], chunks, list, list.head_eq, fun _ => id⟩
  obtain ⟨pre, rest, _, rfl, listed⟩ := visits_invariant holds kept start _ visited
  simp only [mergeTurnWrites] at written
  split at written
  · cases written
  · rename_i present
    split at written
    · cases List.mem_singleton.mp written
      cases rest with
      | nil => exact absurd (.inl rfl) present
      | cons first rest =>
        exact ⟨_, List.mem_map_of_mem (List.mem_map_of_mem (listed List.mem_cons_self)), rfl⟩
    · cases written

/-- `expand` writes headers of the list with its new chunk. -/
theorem expandWrites_listed {amount : BitVec 64} (stored : Segment mem head (front ++ [tail]) 0)
    (layout : Layout limit (front ++ [tail])) (room : limit + amount.toNat + 34 ≤ 2 ^ 64) :
    ∀ chunk ∈ expandWrites head mem amount,
      ∃ block ∈ front ++ [tail, beyond tail amount.toNat], chunk.toNat = block.addr := by
  have turns := layout_length layout (by omega)
  simp only [List.length_append, List.length_singleton] at turns
  obtain ⟨curr, found, before, recorded, _⟩ := tail_found stored turns
  obtain ⟨place, linked⟩ := linkChunk_stored before recorded layout room
  simp only [expandWrites, found, List.mem_cons]
  rintro chunk (rfl | rfl | merged)
  · exact ⟨beyond tail amount.toNat, by simp, place⟩
  · exact ⟨tail, by simp, recorded.position⟩
  · exact mergeWrites_listed linked (layout_extend layout) (by omega) chunk merged

theorem expand_inside_iff {amount : BitVec 64} (housed : Housed heap blocks)
    (room : heap.limit + amount.toNat + 34 ≤ 2 ^ 64) :
    (∀ chunk ∈ expandWrites heap.head heap.mem amount, Inside heap.head (heap.limit + amount.toNat) chunk) ↔
      GrowthFits heap amount := by
  obtain ⟨front, tail, rfl, idle, _⟩ := housed.layout.last
  have turns := layout_length housed.layout (by omega)
  simp only [List.length_append, List.length_singleton] at turns
  obtain ⟨curr, found, before, recorded, last⟩ := tail_found housed.stored turns
  have place := (linkChunk_stored before recorded housed.layout room).1
  have position := recorded.position
  have extent := recorded.extent
  have low := (housed.inside (show tail ∈ _ by simp) position).1
  constructor
  · intro inside other reached ends
    obtain ⟨pre, block, post, shape, records, after⟩ := reachable_recorded housed.stored reached
    cases (next_null_iff after).mp ends
    cases (List.append_inj' shape rfl).2
    have spot := records.position
    have size := records.extent
    simp only [expandWrites, found] at inside
    have high := (inside _ List.mem_cons_self).2
    omega
  · intro fits chunk member
    have grown := fits curr (segment_reachable before recorded.present) last
    obtain ⟨block, inside, same⟩ := expandWrites_listed housed.stored housed.layout room chunk member
    rw [List.append_cons, List.mem_append, List.mem_singleton] at inside
    rcases inside with old | rfl
    · obtain ⟨low, high⟩ := housed.inside old same
      exact ⟨low, by omega⟩
    · simp only [beyond] at same
      exact ⟨by omega, by omega⟩

theorem boot_housed (mem : Memory) {start finish : Addr} (present : start ≠ 0)
    (large : start.toNat + 17 ≤ finish.toNat) (room : finish.toNat + 34 ≤ 2 ^ 64) :
    Housed (boot mem start finish) [⟨start.toNat, false, finish.toNat - start.toNat⟩] where
  toSound := boot_sound mem present (by omega) room
  headers block member := by
    rw [List.mem_singleton.mp member]
    exact large

theorem allocate_housed {size : BitVec 64} (housed : Housed heap blocks) (request : 17 + size.toNat < 2 ^ 64)
    (fits : SplitFits heap size) (ran : allocate heap.head heap.mem size = some (pointer, mem)) :
    ∃ after, Housed { heap with
      mem := mem
      live := if pointer = 0 then heap.live else (pointer, size) :: heap.live } after := by
  rcases allocate_carves housed.toSound request ran with
    ⟨rfl, rfl⟩ | ⟨pre, block, post, rfl, chosen, ⟨_, large⟩, place, carved⟩
  · exact ⟨blocks, housed⟩
  · have present : pointer ≠ 0 := present_of_pos (by omega)
    have room : block.addr + 34 + size.toNat ≤ heap.limit := by
      rcases fits with rfl | fits
      · rw [allocate, if_pos rfl] at ran
        cases ran
        exact absurd rfl present
      · exact fits _ block housed.stored chosen
    rw [if_neg present]
    refine ⟨_, carved, fun part member => ?_⟩
    have old := housed.headers
    simp only [carve, List.mem_append, List.mem_singleton] at member old
    rcases member with (early | rfl | rfl) | late
    · exact old part (.inl (.inl early))
    · exact old block (.inl (.inr rfl))
    · simp only
      omega
    · exact old part (.inr late)

theorem step_housed (housed : Housed heap blocks) (step : CarefulStep heap next) :
    next.head = heap.head ∧ ∃ after, Housed next after := by
  cases step with
  | allocate size request fits ran => exact ⟨rfl, allocate_housed housed request fits ran⟩
  | free held ran =>
    obtain ⟨after, sound, ⟨pre, block, post, rfl, _, rfl⟩, _⟩ := free_sound housed.toSound held ran
    refine ⟨rfl, _, sound, fun part member => ?_⟩
    obtain ⟨old, inside, same⟩ := coalesce_addr member
    have house := housed.headers
    simp only [List.mem_append, List.mem_singleton] at inside house
    rw [← same]
    rcases inside with (early | rfl) | late
    · exact house old (.inl (.inl early))
    · exact house block (.inl (.inr rfl))
    · exact house old (.inr late)
  | expand amount room fits ran =>
    obtain ⟨after, sound, front, tail, rfl, _, rfl⟩ := expand_sound housed.toSound room ran
    refine ⟨rfl, _, sound, fun part member => ?_⟩
    obtain ⟨old, inside, same⟩ := coalesce_addr member
    have house := housed.headers
    simp only [List.mem_append, List.mem_singleton] at inside house
    rw [← same]
    rcases inside with early | rfl
    · exact Nat.le_trans (house old (.inl early)) (Nat.le_add_right _ _)
    · exact Nat.le_trans (house tail (.inr rfl)) (Nat.le_add_right _ _)
  | store held offset count bytes inside =>
    exact ⟨rfl, blocks, store_sound housed.toSound held inside, housed.headers⟩

end Calls

theorem run_housed (present : start ≠ 0) (large : start.toNat + 17 ≤ finish.toNat)
    (room : finish.toNat + 34 ≤ 2 ^ 64) (run : CarefulRun (boot mem start finish) heap) :
    heap.head = start ∧ ∃ blocks, Housed heap blocks := by
  induction run with
  | refl => exact ⟨rfl, _, boot_housed mem present large room⟩
  | tail _ step ih =>
    obtain ⟨same, blocks, housed⟩ := ih
    obtain ⟨kept, after⟩ := step_housed housed step
    exact ⟨kept.trans same, after⟩

/-- The header `init` writes lies in the area exactly when the area has room for it; and as
long as the calls leave room, the headers of a further call lie in the area exactly when it
leaves room too. -/
theorem headers_inside_iff (mem : Memory) (start finish : Addr) (present : start ≠ 0)
    (room : finish.toNat + 34 ≤ 2 ^ 64) :
    ((∀ chunk ∈ initWrites start, Inside start finish.toNat chunk) ↔ start.toNat + 17 ≤ finish.toNat) ∧
      (start.toNat + 17 ≤ finish.toNat → ∀ heap, CarefulRun (boot mem start finish) heap →
        (∀ size : BitVec 64, 17 + size.toNat < 2 ^ 64 →
          ((∀ chunk ∈ allocateWrites heap.head heap.mem size, Inside start heap.limit chunk) ↔ SplitFits heap size)) ∧
        ∀ amount : BitVec 64, heap.limit + amount.toNat + 34 ≤ 2 ^ 64 →
          ((∀ chunk ∈ expandWrites heap.head heap.mem amount,
              Inside start (heap.limit + amount.toNat) chunk) ↔ GrowthFits heap amount)) := by
  refine ⟨by simp [initWrites, Inside], fun large heap run => ?_⟩
  obtain ⟨same, blocks, housed⟩ := run_housed present large room run
  rw [← same]
  exact ⟨fun size request => allocate_inside_iff housed request, fun amount grown => expand_inside_iff housed grown⟩

/-- The headers of a request that the first chunk grants. -/
theorem allocateWrites_granted {mem : Memory} {head next : Addr} {size : BitVec 64} (present : head ≠ 0)
    (pos : size ≠ 0) (recorded : header mem head = ⟨next, false, extent⟩) (fits : sizeofChunkHeader + size ≤ extent) :
    allocateWrites head mem size = [head + sizeofChunkHeader + size, head] := by
  have left : allocateTurn mem size head = .leave (head + sizeofChunkHeader, split mem head size) := by
    rw [allocateTurn, if_neg present, recorded]
    simp [fits]
  rw [allocateWrites, if_neg pos, visits_leave left (by decide), List.flatMap_singleton, allocateTurnWrites,
    if_neg present, recorded]
  simp [fits]

theorem headers_inside_iff_default : heapDefaultStart.toNat + 17 ≤ heapDefaultEnd.toNat ∧
    ∀ chunk ∈ allocateWrites heapDefaultStart defaultHeap.mem 16,
      Inside heapDefaultStart heapDefaultEnd.toNat chunk := by
  have large : heapDefaultStart.toNat + 17 ≤ heapDefaultEnd.toNat := by decide
  have calls := (headers_inside_iff (fun _ => 0) heapDefaultStart heapDefaultEnd (by decide) (by decide)).2
    large defaultHeap .refl
  refine ⟨large, (calls.1 16 (by decide)).mpr (.inr fun blocks block stored chosen => ?_)⟩
  have sound : Sound defaultHeap _ := boot_sound (fun _ => 0) (by decide) (by decide) (by decide)
  cases segment_unique stored sound.stored
  cases (List.mem_singleton.mp (List.mem_of_find?_eq_some chosen) : block = _)
  decide

/-- A request for all of the first heap puts the header of an empty remainder behind its end. -/
theorem header_behind_end : heapDefaultEnd ∈ allocateWrites defaultHeap.head defaultHeap.mem 0xFFFEF ∧
    ¬ Inside heapDefaultStart heapDefaultEnd.toNat heapDefaultEnd := by
  have listed : allocateWrites defaultHeap.head defaultHeap.mem 0xFFFEF = _ :=
    allocateWrites_granted (by decide) (by decide) defaultHeap_header (by decide)
  rw [listed]
  refine ⟨by decide, fun inside => ?_⟩
  exact absurd inside.2 (by decide)

/-! ## Payloads

The calls write headers only, and no header lies in a payload: what an owner stored stays
until the owner stores again. -/

section Payloads
variable {heap : Heap} {blocks : List Block} {owner : Block} {address : Addr}

section Calls
variable (low : owner.addr + 17 ≤ address.toNat) (high : address.toNat < owner.addr + 17 + owner.size)
include low high

theorem payload_outside (layout : Layout limit blocks) (owned : owner ∈ blocks) {chunks : List Addr}
    (listed : ∀ chunk ∈ chunks, ∃ block ∈ blocks, chunk.toNat = block.addr) : Outside chunks address := by
  intro chunk member
  obtain ⟨block, held, place⟩ := listed chunk member
  have clear := header_clear layout owned held
  bv_omega

variable (sound : Sound heap blocks) (owned : owner ∈ blocks)
include sound owned

theorem allocate_kept {size : BitVec 64} (used : owner.used = true) (request : 17 + size.toNat < 2 ^ 64)
    (ran : allocate heap.head heap.mem size = some (pointer, mem)) : mem address = heap.mem address := by
  have room := sound.room
  by_cases zero : size = 0
  · rw [allocate, if_pos zero] at ran
    cases ran
    rfl
  rcases allocate_spec sound.stored sound.layout (by omega) zero request with
    ⟨missed, _⟩ | ⟨pre, block, post, curr, rfl, _, fits, position, found, _⟩
  · rw [missed] at ran
    cases ran
    rfl
  · rw [found] at ran
    cases ran
    -- the chunk taken was unused, so the payload is that of another one
    have stays : owner ∈ pre ++ carve block size.toNat ++ post := by
      have other : owner ≠ block := fun same => by simp [same, fits.1] at used
      simp only [List.mem_append, List.mem_singleton, other, or_false] at owned
      simp only [List.mem_append]
      tauto
    have inside := layout_inside sound.layout (show block ∈ _ by simp)
    have large := fits.2
    have rest : (curr + sizeofChunkHeader + size).toNat = curr.toNat + 17 + size.toNat := rest_place (by omega)
    have outside : Outside [curr, curr + sizeofChunkHeader + size] address := by
      refine payload_outside low high (layout_carve sound.layout fits.2) stays fun chunk member => ?_
      simp only [List.mem_cons, List.not_mem_nil, or_false] at member
      rcases member with rfl | rfl
      · exact ⟨⟨block.addr, true, size.toNat⟩, by simp [carve], position⟩
      · refine ⟨⟨block.addr + 17 + size.toNat, false, block.size - (17 + size.toNat)⟩, by simp [carve], ?_⟩
        rw [rest, position]
    exact split_outside (outside _ (by simp)) (outside _ (by simp))

/-- The bytes of the allocation that is freed stay too. -/
theorem free_kept {size : BitVec 64} (held : (pointer, size) ∈ heap.live)
    (ran : free heap.head heap.mem pointer = some (freed, mem)) : mem address = heap.mem address := by
  have room := sound.room
  obtain ⟨block, member, used, place⟩ := live_block sound held
  obtain ⟨pre, post, shape⟩ := List.append_of_mem member
  rw [List.append_cons] at shape
  subst shape
  obtain ⟨recorded, cleared⟩ := release_stored sound.stored sound.layout (by omega) (congrArg Prod.fst place)
  have outside : Outside ((pointer - sizeofChunkHeader) ::
      mergeWrites heap.head (setUsed heap.mem (pointer - sizeofChunkHeader) false)) address := by
    refine payload_outside low high sound.layout owned fun chunk listed => ?_
    rcases List.mem_cons.mp listed with rfl | merged
    · exact ⟨block, member, recorded.position⟩
    · obtain ⟨part, inside, same⟩ := mergeWrites_listed cleared (layout_release sound.layout) (by omega) chunk merged
      simp only [List.mem_append, List.mem_singleton] at inside
      rcases inside with (early | rfl) | late
      · exact ⟨part, by simp [early], same⟩
      · exact ⟨block, member, same⟩
      · exact ⟨part, by simp [late], same⟩
  simp only [free, recorded.flag, used, Bool.not_true, Bool.false_eq_true, if_false, Option.map_eq_some_iff,
    Prod.mk.injEq] at ran
  obtain ⟨after, merged, _, rfl⟩ := ran
  rw [mergeChunks_writes_only merged fun chunk listed => outside chunk (List.mem_cons_of_mem _ listed),
    setUsed_outside (outside _ List.mem_cons_self)]

theorem expand_kept {amount : BitVec 64} (room : heap.limit + amount.toNat + 34 ≤ 2 ^ 64)
    (ran : expand heap.head heap.mem amount = some mem) : mem address = heap.mem address := by
  obtain ⟨front, tail, rfl, _⟩ := sound.layout.last
  have stays : owner ∈ front ++ [tail, beyond tail amount.toNat] := by
    rw [List.append_cons]
    exact List.mem_append_left _ owned
  exact expand_writes_only ran (payload_outside low high (layout_extend sound.layout) stays
    (expandWrites_listed sound.stored sound.layout room))

end Calls

theorem store_kept (sound : Sound heap blocks) {allocation : Addr × BitVec 64} {pointer : Addr} {size : BitVec 64}
    (member : allocation ∈ heap.live) (held : (pointer, size) ∈ heap.live) (other : allocation ≠ (pointer, size))
    (low : allocation.1.toNat ≤ address.toNat) (high : address.toNat < allocation.1.toNat + allocation.2.toNat)
    (inside : offset + count ≤ size.toNat) :
    write heap.mem (pointer + BitVec.ofNat 64 offset) count bytes address = heap.mem address := by
  have safe := sound_safe sound
  have room := sound.room
  have ends := (safe.inside _ held).2
  have symmetric : Std.Symm fun first second => Clear (region first) (region second) :=
    ⟨fun first second clear byte both => clear byte (by omega)⟩
  have clear := safe.disjoint.forall member held other address.toNat
  simp only [region] at clear ends
  have spot : (pointer + BitVec.ofNat 64 offset).toNat = pointer.toNat + offset := offset_place (by omega)
  refine write_of_le ?_
  bv_omega

end Payloads

/-- In every state of the heap, a step leaves every byte of an allocation as it was, unless
it is a store of the owner. -/
theorem payload_kept (mem : Memory) (start finish : Addr) (order : start.toNat ≤ finish.toNat)
    (room : finish.toNat + 34 ≤ 2 ^ 64) (heap next : Heap) (run : Run (boot mem start finish) heap)
    (step : Step heap next) (allocation : Addr × BitVec 64) (member : allocation ∈ heap.live) (address : Addr)
    (low : allocation.1.toNat ≤ address.toNat) (high : address.toNat < allocation.1.toNat + allocation.2.toNat) :
    next.mem address = heap.mem address ∨ ∃ offset count bytes, offset + count ≤ allocation.2.toNat ∧
      next = { heap with mem := write heap.mem (allocation.1 + BitVec.ofNat 64 offset) count bytes } := by
  have present : start ≠ 0 := by
    intro null
    rw [(null_run null run).2] at member
    cases member
  obtain ⟨_, blocks, sound⟩ := run_sound present order room run
  obtain ⟨owner, owned, used, place⟩ := live_block sound member
  simp only [region, Prod.mk.injEq] at place
  have above : owner.addr + 17 ≤ address.toNat := by omega
  have below : address.toNat < owner.addr + 17 + owner.size := by omega
  cases step with
  | allocate size request ran => exact .inl (allocate_kept above below sound owned used request ran)
  | free held ran => exact .inl (free_kept above below sound owned held ran)
  | expand amount room ran => exact .inl (expand_kept above below sound owned room ran)
  | @store pointer size held offset count bytes inside =>
    by_cases own : allocation = (pointer, size)
    · subst own
      exact .inr ⟨offset, count, bytes, inside, rfl⟩
    · exact .inl (store_kept sound member held own low high inside)

/-- The bytes of an allocation outlive its release. -/
theorem payload_kept_freed : ∃ heap next, Run (boot (fun _ => 0) heapDefaultStart heapDefaultEnd) heap ∧
    Step heap next ∧ heap.live = [(heapDefaultStart + 50, 32)] ∧ next.live = [] ∧
      next.mem (heapDefaultStart + 50) = heap.mem (heapDefaultStart + 50) := by
  obtain ⟨heap, run, live⟩ := default_run
  have held : (heapDefaultStart + 50, 32) ∈ heap.live := by simp [live]
  obtain ⟨_, blocks, sound⟩ := run_sound (by decide) (by decide) (by decide) run
  obtain ⟨⟨freed, mem⟩, ran⟩ := Option.isSome_iff_exists.mp (free_returns sound held)
  have empty : heap.live.erase (heapDefaultStart + 50, 32) = [] := by simp [live]
  refine ⟨heap, _, run, .free held ran, live, empty, ?_⟩
  rcases payload_kept (fun _ => 0) heapDefaultStart heapDefaultEnd (by decide) (by decide) heap _ run (.free held ran)
    _ held (heapDefaultStart + 50) (Nat.le_refl _) (by decide) with kept | ⟨offset, count, bytes, _, own⟩
  · exact kept
  · have same := congrArg Heap.live own
    simp [live] at same

end LunaOS.HeapBounds
