import LunaOS.ChunkMerging
import LunaOS.FreelistLayout

/-! The byte-level allocator refines the abstract layout: each operation reads
and writes exactly the headers of the chunk list it was given, returns, and
leaves the list the layout operation describes. -/
namespace LunaOS.FreelistRefinement
open Coalescing ByteMemory BoundedLoop FreelistAllocator ChunkMerging FreelistLayout

theorem present_of_pos {chunk : Addr} (pos : 0 < chunk.toNat) : chunk ≠ 0 := by
  rintro rfl
  exact absurd pos (by decide)

/-- The header at `chunk` records `block`. -/
structure Records (mem : Memory) (chunk : Addr) (block : Block) : Prop where
  present : chunk ≠ 0
  position : chunk.toNat = block.addr
  flag : (header mem chunk).used = block.used
  extent : (header mem chunk).size.toNat = block.size

/-- Following `next` from `curr` visits `blocks` and arrives at `stop`. -/
def Segment (mem : Memory) : Addr → List Block → Addr → Prop
  | curr, [], stop => curr = stop
  | curr, block :: rest, stop =>
    Records mem curr block ∧ Segment mem (header mem curr).next rest stop

theorem segment_unique (first : Segment mem curr blocks 0) (second : Segment mem curr others 0) :
    blocks = others := by
  induction blocks generalizing curr others with
  | nil =>
    cases others with
    | nil => rfl
    | cons other rest => exact absurd first second.1.present
  | cons block rest ih =>
    cases others with
    | nil => exact absurd second first.1.present
    | cons other others =>
      have same : block = other := by
        cases block
        cases other
        simp only [Block.mk.injEq]
        exact ⟨first.1.position.symm.trans second.1.position, first.1.flag.symm.trans second.1.flag,
          first.1.extent.symm.trans second.1.extent⟩
      rw [same, ih first.2 second.2]

theorem segment_append : Segment mem curr (first ++ second) stop ↔
    ∃ middle, Segment mem curr first middle ∧ Segment mem middle second stop := by
  induction first generalizing curr with
  | nil => simp [Segment]
  | cons block rest ih => simp only [List.cons_append, Segment, ih, and_assoc, exists_and_left]

theorem segment_frame {before after : Memory} (same : ∀ block ∈ blocks, ∀ chunk : Addr, chunk.toNat = block.addr →
      header after chunk = header before chunk)
    (stored : Segment before curr blocks stop) : Segment after curr blocks stop := by
  induction blocks generalizing curr with
  | nil => exact stored
  | cons block rest ih =>
    obtain ⟨recorded, tail⟩ := stored
    have kept := same block (by simp) curr recorded.position
    refine ⟨⟨recorded.present, recorded.position, ?_, ?_⟩, ?_⟩
    · rw [kept]; exact recorded.flag
    · rw [kept]; exact recorded.extent
    · rw [kept]
      exact ih (fun block member => same block (by simp [member])) tail

/-- Headers at distinct chunks of a spaced list do not overlap. -/
theorem headers_apart (first second : Addr) (ordered : first.toNat + 17 ≤ second.toNat)
    (room : second.toNat + 17 ≤ 2 ^ 64) : Apart first 17 second 17 ∧ Apart second 17 first 17 :=
  ⟨apart_of_le_left ordered room, apart_of_le_right ordered room⟩

theorem layout_addr (layout : Layout limit blocks) (member : block ∈ blocks) : block.addr ≤ limit :=
  Nat.le_trans (Nat.le_add_right _ _) (layout_inside layout member)

/-- Chunks of the list are apart, so there are fewer than addresses. -/
theorem layout_length (layout : Layout limit blocks) (room : limit + 17 ≤ 2 ^ 64) : blocks.length < maxTurns := by
  have distinct : (blocks.map Block.addr).Nodup := by
    refine List.pairwise_map.mpr (layout.spaced.imp fun gap => ?_)
    simp only [Block.Before] at gap
    omega
  have few := places_le distinct fun place member => by
    obtain ⟨block, listed, rfl⟩ := List.mem_map.mp member
    exact Nat.lt_succ_of_le (layout_addr layout listed)
  rw [List.length_map] at few
  rw [maxTurns]
  omega

/-- A store that touches headers only inside the extent of `olds` keeps the
chunks before and after it. -/
theorem segment_outside {mem after : Memory} {pre olds post : List Block} (low high : Nat)
    (layout : Layout limit (pre ++ olds ++ post)) (room : limit + 17 ≤ 2 ^ 64)
    (floor : ∃ old ∈ olds, old.addr ≤ low) (ceiling : ∃ old ∈ olds, high ≤ old.addr + 17 + old.size)
    (frame : ∀ chunk : Addr, (chunk.toNat + 17 ≤ low ∨ high ≤ chunk.toNat) →
      chunk.toNat + 17 ≤ 2 ^ 64 → header after chunk = header mem chunk) :
    (∀ {head first}, Segment mem head pre first → Segment after head pre first) ∧
      (∀ {first}, Segment mem first post 0 → Segment after first post 0) := by
  obtain ⟨outer, _, toPost⟩ := List.pairwise_append.mp layout.spaced
  have fromPre := (List.pairwise_append.mp outer).2.2
  constructor
  · intro head first
    apply segment_frame
    intro block member chunk position
    obtain ⟨old, held, reach⟩ := floor
    have gap := fromPre block member old held
    have bound := layout_addr layout (show block ∈ _ by simp [member])
    simp only [Block.Before] at gap
    exact frame chunk (.inl (by omega)) (by omega)
  · intro first
    apply segment_frame
    intro block member chunk position
    obtain ⟨old, held, reach⟩ := ceiling
    have gap := toPost old (by simp [held]) block member
    have bound := layout_addr layout (show block ∈ _ by simp [member])
    simp only [Block.Before] at gap
    exact frame chunk (.inr (by omega)) (by omega)

/-! ## First fit -/

/-- The test of `allocate`, on the recorded values. -/
def Fits (size : Nat) (block : Block) : Prop := block.used = false ∧ 17 + size ≤ block.size

/-- The test as the machine makes it, on the sum that may have wrapped. -/
def Takes (size : BitVec 64) (block : Block) : Prop :=
  block.used = false ∧ (sizeofChunkHeader + size).toNat ≤ block.size

instance : Decidable (Takes size block) := inferInstanceAs (Decidable (_ ∧ _))

instance : Decidable (Fits size block) := inferInstanceAs (Decidable (_ ∧ _))

theorem takes_iff_fits {size : BitVec 64} (request : 17 + size.toNat < 2 ^ 64) :
    Takes size block ↔ Fits size.toNat block := by
  have sum : (sizeofChunkHeader + size).toNat = 17 + size.toNat := by
    simp only [sizeofChunkHeader]
    bv_omega
  unfold Takes Fits
  rw [sum]

theorem takes_iff {size : BitVec 64} (recorded : Records mem curr block) :
    (!(header mem curr).used && decide (sizeofChunkHeader + size ≤ (header mem curr).size)) = true ↔
      Takes size block := by
  simp [Takes, recorded.flag, BitVec.le_def, recorded.extent]

/-- Chunks that do not fit are passed over, one turn each. -/
theorem allocate_passes {size : BitVec 64}
    (stored : Segment mem curr pre middle) (full : ∀ block ∈ pre, ¬ Takes size block) :
    iterate (allocateTurn mem size) (turns + pre.length) curr = iterate (allocateTurn mem size) turns middle := by
  induction pre generalizing curr with
  | nil => rw [show curr = middle from stored]; rfl
  | cons block rest ih =>
    obtain ⟨recorded, tail⟩ := stored
    have misses := mt (takes_iff recorded).mp (full block (by simp))
    have asked : allocateTurn mem size curr = .again (header mem curr).next := by
      rw [allocateTurn, if_neg recorded.present, if_neg misses]
    rw [List.length_cons, ← Nat.add_assoc, iterate_again asked]
    exact ih tail (fun block member => full block (by simp [member]))

/-- First fit, for every size: it returns with nothing, and wrote nothing, or with the
first chunk that passes the test. -/
theorem allocate_finds {size : BitVec 64} (stored : Segment mem head blocks 0)
    (short : blocks.length < maxTurns) (pos : size ≠ 0) :
    (allocate head mem size = some (0, mem) ∧ ∀ block ∈ blocks, ¬ Takes size block) ∨
      ∃ pre block post curr, blocks = pre ++ [block] ++ post ∧
        blocks.find? (fun block => decide (Takes size block)) = some block ∧ Takes size block ∧
        Segment mem head pre curr ∧ Records mem curr block ∧ Segment mem (header mem curr).next post 0 ∧
        allocate head mem size = some (curr + sizeofChunkHeader, split mem curr size) := by
  rw [allocate, if_neg pos]
  cases found : blocks.find? (fun block => decide (Takes size block)) with
  | none =>
    have full : ∀ block ∈ blocks, ¬ Takes size block := by
      simpa using List.find?_eq_none.mp found
    refine .inl ⟨?_, full⟩
    rw [show maxTurns = (maxTurns - blocks.length) + blocks.length by omega, allocate_passes stored full]
    exact iterate_leave (by rw [allocateTurn, if_pos rfl]) (by omega)
  | some block =>
    obtain ⟨taken, pre, post, shape, full⟩ := List.find?_eq_some_iff_append.mp found
    have taken := of_decide_eq_true taken
    rw [List.append_cons] at shape
    subst shape
    obtain ⟨middle, front, after⟩ := segment_append.mp stored
    obtain ⟨curr, before, recorded, last⟩ := segment_append.mp front
    cases last
    refine .inr ⟨pre, block, post, curr, rfl, rfl, taken, before, recorded, after, ?_⟩
    simp only [List.length_append, List.length_singleton] at short
    rw [show maxTurns = (maxTurns - pre.length) + pre.length by omega, allocate_passes before (by simpa using full)]
    refine iterate_leave ?_ (by omega)
    rw [allocateTurn, if_neg recorded.present, if_pos ((takes_iff recorded).mpr taken)]

theorem payload_place (room : curr.toNat + 17 < 2 ^ 64) : (curr + sizeofChunkHeader).toNat = curr.toNat + 17 := by
  simp only [sizeofChunkHeader]
  bv_omega

theorem rest_place {size : BitVec 64} (room : curr.toNat + 17 + size.toNat < 2 ^ 64) :
    (curr + sizeofChunkHeader + size).toNat = curr.toNat + 17 + size.toNat := by
  simp only [sizeofChunkHeader]
  bv_omega

theorem split_header {size : BitVec 64} (recorded : Records mem curr block)
    (fits : 17 + size.toNat ≤ block.size) (room : block.addr + block.size + 17 ≤ 2 ^ 64) :
    let rest := curr + sizeofChunkHeader + size
    header (split mem curr size) curr = ⟨rest, true, size⟩ ∧ header (split mem curr size) rest =
        ⟨(header mem curr).next, false, (header mem curr).size - (sizeofChunkHeader + size)⟩ := by
  have position := recorded.position
  have place : (curr + sizeofChunkHeader + size).toNat = curr.toNat + 17 + size.toNat := rest_place (by omega)
  obtain ⟨here, there⟩ := headers_apart curr (curr + sizeofChunkHeader + size)
    (by omega) (by omega)
  constructor <;>
    simp [split, header_setNext_apart here, header_setUsed_apart here, header_setSize_apart here,
      header_setNext_apart there, header_setUsed_apart there, header_setSize_apart there]

theorem split_frame {size : BitVec 64} {curr chunk : Addr} (wrap : curr.toNat + 34 + size.toNat ≤ 2 ^ 64)
    (outside : chunk.toNat + 17 ≤ curr.toNat ∨ curr.toNat + 34 + size.toNat ≤ chunk.toNat)
    (room : chunk.toNat + 17 ≤ 2 ^ 64) : header (split mem curr size) chunk = header mem chunk := by
  have place : (curr + sizeofChunkHeader + size).toNat = curr.toNat + 17 + size.toNat := rest_place (by omega)
  have here : Apart chunk 17 curr 17 := by
    rcases outside with below | above
    · exact apart_of_le_left below (by omega)
    · exact apart_of_le_right (by omega) room
  have there : Apart chunk 17 (curr + sizeofChunkHeader + size) 17 := by
    rcases outside with below | above
    · exact apart_of_le_left (by omega) (by omega)
    · exact apart_of_le_right (by omega) room
  simp only [split, header_setNext_apart here, header_setUsed_apart here, header_setSize_apart here,
    header_setNext_apart there, header_setUsed_apart there, header_setSize_apart there]

/-- Splitting the chunk found leaves the list with that chunk carved. -/
theorem split_stored {size : BitVec 64} {curr : Addr}
    (before : Segment mem head pre curr) (recorded : Records mem curr block)
    (after : Segment mem (header mem curr).next post 0)
    (layout : Layout limit (pre ++ [block] ++ post)) (room : limit + 17 ≤ 2 ^ 64)
    (fits : 17 + size.toNat ≤ block.size) :
    Segment (split mem curr size) head (pre ++ carve block size.toNat ++ post) 0 := by
  have position := recorded.position
  have extent := recorded.extent
  have inside := layout_inside layout (show block ∈ _ by simp)
  have place : (curr + sizeofChunkHeader + size).toNat = curr.toNat + 17 + size.toNat := rest_place (by omega)
  have left : ((header mem curr).size - (sizeofChunkHeader + size)).toNat = block.size - (17 + size.toNat) := by
    bv_omega
  obtain ⟨payload, remainder⟩ := split_header recorded fits (by omega)
  obtain ⟨keepPre, keepPost⟩ := segment_outside curr.toNat (curr.toNat + 34 + size.toNat)
    layout room ⟨block, by simp, by omega⟩ ⟨block, by simp, by omega⟩
    (fun chunk outside fit => split_frame (by omega) outside fit)
  rw [List.append_assoc, segment_append]
  refine ⟨curr, keepPre before, ?_⟩
  refine ⟨⟨recorded.present, position, by rw [payload], by rw [payload]⟩, ?_⟩
  rw [payload]
  refine ⟨⟨present_of_pos (show 0 < (curr + sizeofChunkHeader + size).toNat by omega),
    by rw [place, position], by rw [remainder], by rw [remainder]; exact left⟩, ?_⟩
  rw [remainder]
  exact keepPost after

/-- First fit either finds nothing and writes nothing, or carves the first
chunk that fits. It always returns. -/
theorem allocate_spec {size : BitVec 64} (stored : Segment mem head blocks 0)
    (layout : Layout limit blocks) (room : limit + 17 ≤ 2 ^ 64) (pos : size ≠ 0)
    (request : 17 + size.toNat < 2 ^ 64) :
    (allocate head mem size = some (0, mem) ∧ ∀ block ∈ blocks, ¬ Fits size.toNat block) ∨
      ∃ pre block post curr, blocks = pre ++ [block] ++ post ∧
        blocks.find? (fun block => decide (Fits size.toNat block)) = some block ∧ Fits size.toNat block ∧
        curr.toNat = block.addr ∧ allocate head mem size = some (curr + sizeofChunkHeader, split mem curr size) ∧
        Segment (split mem curr size) head (pre ++ carve block size.toNat ++ post) 0 := by
  rcases allocate_finds stored (layout_length layout room) pos with
    ⟨missed, full⟩ | ⟨pre, block, post, curr, rfl, first, taken, before, recorded, after, found⟩
  · exact .inl ⟨missed, fun block member fits => full block member ((takes_iff_fits request).mpr fits)⟩
  · have fits := (takes_iff_fits request).mp taken
    simp only [takes_iff_fits request] at first
    exact .inr ⟨pre, block, post, curr, rfl, first, fits, recorded.position, found,
      split_stored before recorded after layout room fits.2⟩

/-! ## Merging -/

/-- What a header says of its chunk, without the machine's words. -/
def blockAt (chunk : Chunk) : Block := ⟨chunk.addr.toNat, chunk.used, chunk.size.toNat⟩

theorem segment_iff : Segment mem curr blocks stop ↔
    ∃ chunks, Linked mem curr chunks stop ∧ blocks = (chunks.map (recorded mem)).map blockAt := by
  induction blocks generalizing curr with
  | nil => simp [Segment, Linked]
  | cons block rest ih =>
    rw [Segment, ih]
    constructor
    · rintro ⟨records, chunks, linked, rfl⟩
      refine ⟨curr :: chunks, ⟨rfl, records.present, linked⟩, ?_⟩
      rw [List.map_cons, List.map_cons, recorded, blockAt, records.position, records.flag, records.extent]
    · rintro ⟨_ | ⟨chunk, chunks⟩, linked, shape⟩
      · cases shape
      · obtain ⟨rfl, present, linked⟩ := linked
        obtain ⟨rfl, rfl⟩ := List.cons.inj shape
        exact ⟨⟨present, rfl, rfl, rfl⟩, chunks, linked, rfl⟩

theorem chunkList_of_layout (linked : Linked mem head chunks 0)
    (layout : Layout limit ((chunks.map (recorded mem)).map blockAt)) (room : limit + 17 ≤ 2 ^ 64) :
    ChunkList mem head chunks := by
  have spaced := List.pairwise_map.mp (List.pairwise_map.mp layout.spaced)
  refine ⟨linked, spaced.imp fun gap same => ?_, ?_⟩
  · simp only [same, Block.Before, blockAt, recorded] at gap
    omega
  · have apart : chunks.Pairwise fun first second => Apart first 17 second 17 ∧ Apart second 17 first 17 := by
      refine spaced.imp_of_mem fun {first second} _ member gap => ?_
      have bound := layout_addr layout (List.mem_map_of_mem (List.mem_map_of_mem member))
      simp only [Block.Before, blockAt, recorded] at gap bound
      exact headers_apart first second (by omega) (by omega)
    have symmetric : Std.Symm fun first second => Apart first 17 second 17 ∧ Apart second 17 first 17 :=
      ⟨fun _ _ both => ⟨both.2, both.1⟩⟩
    exact fun first member second member' distinct => (apart.forall member member' distinct).1

/-- In a layout no sum of sizes wraps around. -/
theorem coalesce_blocks (pre : List Block) (pieces : List Chunk) (layout : Layout limit (pre ++ pieces.map blockAt))
    (room : limit + 17 ≤ 2 ^ 64) : coalesce (pieces.map blockAt) = (merge Chunk.used join pieces).map blockAt := by
  fun_induction merge Chunk.used join pieces generalizing pre with
  | case1 => rw [List.map_nil, coalesce]
  | case2 piece => rw [List.map_singleton, coalesce]
  | case3 first second rest idle ih =>
    have layout : Layout limit (pre ++ [blockAt first, blockAt second] ++ rest.map blockAt) := by simpa using layout
    have gap : (blockAt first).Before (blockAt second) :=
      List.rel_of_pairwise_cons (List.pairwise_append.mp (List.pairwise_append.mp layout.spaced).1).2.1 (by simp)
    have inside := layout_inside layout (show blockAt second ∈ _ by simp)
    have both : blockAt (join first second) = absorb (blockAt first) (blockAt second) := by
      simp only [Block.Before, blockAt] at gap inside
      simp only [blockAt, join, absorb, BitVec.toNat_add, Block.mk.injEq, true_and]
      exact Nat.mod_eq_of_lt (by omega)
    rw [← ih pre (by simpa [both] using layout_absorb pre _ layout idle.1), List.map_cons, List.map_cons, List.map_cons,
      both, coalesce_merge idle.1 idle.2]
  | case4 first second rest busy ih =>
    have later := ih (pre ++ [blockAt first]) (by simpa using layout)
    simp only [List.map_cons] at later ⊢
    rw [coalesce_keep busy, later]

/-- `mergeChunks` always returns, with the coalesced list. -/
theorem mergeChunks_spec (stored : Segment mem head blocks 0) (layout : Layout limit blocks)
    (room : limit + 17 ≤ 2 ^ 64) :
    ∃ merged, mergeChunks head mem = some merged ∧ Segment merged head (coalesce blocks) 0 := by
  obtain ⟨chunks, linked, rfl⟩ := segment_iff.mp stored
  have list := chunkList_of_layout linked layout room
  obtain ⟨merged, left, ran, kept, records, _⟩ :=
    merge_linked (show ChunkList mem head ([] ++ chunks) from list) list.length_lt
  rw [list.head_eq] at ran
  refine ⟨merged, ran, segment_iff.mpr ⟨left, kept.linked, ?_⟩⟩
  rw [records, coalesce_blocks [] _ layout room]

/-! ## Freeing and growing -/

section Free
variable {pointer : Addr} (stored : Segment mem head (pre ++ [block] ++ post) 0)
  (layout : Layout limit (pre ++ [block] ++ post)) (room : limit + 17 ≤ 2 ^ 64)
  (position : pointer.toNat = block.addr + 17)
include stored layout room position

/-- The chunk before the pointer, and the list once its flag is cleared. -/
theorem release_stored : Records mem (pointer - sizeofChunkHeader) block ∧
    Segment (setUsed mem (pointer - sizeofChunkHeader) false) head (pre ++ [release block] ++ post) 0 := by
  obtain ⟨middle, front, tail⟩ := segment_append.mp stored
  obtain ⟨curr, before, recorded, last⟩ := segment_append.mp front
  cases last
  have place := recorded.position
  have chunk : pointer - sizeofChunkHeader = curr := by
    simp only [sizeofChunkHeader]
    bv_omega
  have frame : ∀ chunk : Addr, (chunk.toNat + 17 ≤ curr.toNat ∨ curr.toNat + 17 ≤ chunk.toNat) →
      chunk.toNat + 17 ≤ 2 ^ 64 → header (setUsed mem curr false) chunk = header mem chunk := by
    intro chunk outside fit
    rcases outside with below | above
    · exact header_setUsed_apart (apart_of_le_left below (by omega))
    · exact header_setUsed_apart (apart_of_le_right above fit)
  obtain ⟨keepPre, keepPost⟩ := segment_outside curr.toNat (curr.toNat + 17) layout room
    ⟨block, by simp, by omega⟩ ⟨block, by simp, by omega⟩ frame
  rw [chunk, List.append_assoc, segment_append]
  refine ⟨recorded, curr, keepPre before, ⟨recorded.present, place, by simp [release], ?_⟩, ?_⟩
  · rw [header_setUsed]; exact recorded.extent
  · rw [header_setUsed]; exact keepPost tail

/-- Freeing a used chunk of the list returns its recorded size and leaves the
coalesced list without it. -/
theorem free_spec (used : block.used = true) :
    ∃ size after, free head mem pointer = some (size, after) ∧ size.toNat = block.size ∧
      Segment after head (coalesce (pre ++ [release block] ++ post)) 0 := by
  obtain ⟨recorded, cleared⟩ := release_stored stored layout room position
  obtain ⟨after, merged, result⟩ := mergeChunks_spec cleared (layout_release layout) room
  refine ⟨(header (setUsed mem (pointer - sizeofChunkHeader) false) (pointer - sizeofChunkHeader)).size, after, ?_, ?_,
    result⟩
  · simp [free, recorded.flag, used, merged]
  · rw [header_setUsed]; exact recorded.extent

end Free

theorem tail_passes (stored : Segment mem curr front last) (present : last ≠ 0) :
    iterate (tailTurn mem) (turns + front.length) curr = iterate (tailTurn mem) turns last := by
  induction front generalizing curr with
  | nil => rw [show curr = last from stored]; rfl
  | cons block rest ih =>
    obtain ⟨recorded, tail⟩ := stored
    have onward : (header mem curr).next ≠ 0 := by
      cases rest with
      | nil => rw [show (header mem curr).next = last from tail]; exact present
      | cons next rest => exact tail.1.present
    have asked : tailTurn mem curr = .again (header mem curr).next := by
      rw [tailTurn, if_neg onward]
    rw [List.length_cons, ← Nat.add_assoc, iterate_again asked]
    exact ih tail

/-- The walk to the last chunk ends there. -/
theorem tail_found (stored : Segment mem head (front ++ [tail]) 0) (short : front.length + 1 < maxTurns) :
    ∃ curr, iterate (tailTurn mem) maxTurns head = some curr ∧ Segment mem head front curr ∧
      Records mem curr tail ∧ (header mem curr).next = 0 := by
  obtain ⟨curr, before, recorded, last⟩ := segment_append.mp stored
  have last : (header mem curr).next = 0 := last
  refine ⟨curr, ?_, before, recorded, last⟩
  rw [show maxTurns = (maxTurns - front.length) + front.length by omega, tail_passes before recorded.present]
  exact iterate_leave (by rw [tailTurn, if_pos last]) (by omega)

/-- The stores of `expand` before it merges: a chunk behind the last one. -/
def linkChunk (mem : Memory) (tail : Addr) (amount : BitVec 64) : Memory :=
  let newChunk := tail + sizeofChunkHeader + (header mem tail).size
  setNext (setUsed (setSize (setNext mem newChunk 0) newChunk amount) newChunk false) tail newChunk

theorem expand_eq (found : iterate (tailTurn mem) maxTurns head = some tail) (amount : BitVec 64) :
    expand head mem amount = mergeChunks head (linkChunk mem tail amount) := by
  simp only [expand, found, Option.bind_eq_bind, Option.bind_some, linkChunk]

theorem linkChunk_stored {amount : BitVec 64} (before : Segment mem head front curr)
    (recorded : Records mem curr tail) (layout : Layout limit (front ++ [tail]))
    (room : limit + amount.toNat + 34 ≤ 2 ^ 64) :
    (curr + sizeofChunkHeader + (header mem curr).size).toNat = tail.addr + 17 + tail.size ∧
      Segment (linkChunk mem curr amount) head (front ++ [tail, beyond tail amount.toNat]) 0 := by
  have position := recorded.position
  have extent := recorded.extent
  have inside := layout_inside layout (show tail ∈ _ by simp)
  unfold linkChunk
  generalize newDef : curr + sizeofChunkHeader + (header mem curr).size = newChunk
  have place : newChunk.toNat = tail.addr + 17 + tail.size := by
    simp only [← newDef, sizeofChunkHeader]
    bv_omega
  obtain ⟨here, there⟩ := headers_apart curr newChunk (by omega) (by omega)
  generalize grownDef : setNext (setUsed (setSize (setNext mem newChunk 0) newChunk amount)
    newChunk false) curr newChunk = grown
  have tailHeader : header grown curr = ⟨newChunk, (header mem curr).used, (header mem curr).size⟩ := by
    simp [← grownDef, header_setNext_apart here, header_setUsed_apart here, header_setSize_apart here]
  have newHeader : header grown newChunk = ⟨0, false, amount⟩ := by
    simp [← grownDef, header_setNext_apart there]
  have kept : Segment grown head front curr := by
    refine segment_frame ?_ before
    intro block member chunk spot
    have gap := (List.pairwise_append.mp layout.spaced).2.2 block member tail (by simp)
    simp only [Block.Before] at gap
    have low : Apart chunk 17 curr 17 := apart_of_le_left (by omega) (by omega)
    have high : Apart chunk 17 newChunk 17 := apart_of_le_left (by omega) (by omega)
    simp only [← grownDef, header_setNext_apart low, header_setUsed_apart high,
      header_setSize_apart high, header_setNext_apart high]
  refine ⟨place, segment_append.mpr ⟨curr, kept, ⟨recorded.present, position, ?_, ?_⟩, ?_⟩⟩
  · rw [tailHeader]; exact recorded.flag
  · rw [tailHeader]; exact extent
  · rw [tailHeader]
    exact ⟨⟨present_of_pos (show 0 < newChunk.toNat by omega), place, by rw [newHeader]; rfl,
      by rw [newHeader]; rfl⟩, by rw [newHeader]; rfl⟩

/-- Growing always returns. The new chunk lies at most one header past the old
area and is absorbed by the unused last chunk at once. -/
theorem expand_spec {amount : BitVec 64} (stored : Segment mem head (front ++ [tail]) 0)
    (layout : Layout limit (front ++ [tail])) (idle : tail.used = false) (room : limit + amount.toNat + 34 ≤ 2 ^ 64) :
    ∃ after, expand head mem amount = some after ∧
      Segment after head (coalesce (front ++ [grow tail amount.toNat])) 0 := by
  have turns := layout_length layout (by omega)
  simp only [List.length_append, List.length_singleton] at turns
  obtain ⟨curr, found, before, recorded, _⟩ := tail_found stored turns
  have linked := (linkChunk_stored before recorded layout room).2
  obtain ⟨after, merged, result⟩ := mergeChunks_spec linked (layout_extend layout) (by omega)
  refine ⟨after, ?_, ?_⟩
  · rw [expand_eq found, merged]
  · rw [coalesce_absorb_last front idle rfl] at result
    exact result

end LunaOS.FreelistRefinement
