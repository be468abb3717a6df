import LunaOS.FreelistAllocator
import LunaOS.Coalescing
import Mathlib.Data.BitVec
import Mathlib.Data.List.Nodup
import Mathlib.Data.List.Perm.Subperm

/-! `mergeChunks` on its own, over any list of chunks: their sizes may be anything, so sums of
them wrap around. -/
namespace LunaOS.ChunkMerging
open Coalescing ByteMemory BoundedLoop FreelistAllocator

/-- What a header says of its chunk. -/
structure Chunk where
  addr : Addr
  used : Bool
  size : BitVec 64
  deriving DecidableEq

def recorded (mem : Memory) (chunk : Addr) : Chunk :=
  ⟨chunk, (header mem chunk).used, (header mem chunk).size⟩

def join (first second : Chunk) : Chunk := { first with size := first.size + second.size }

theorem join_used (first second : Chunk) : (join first second).used = first.used := rfl

/-- Following `next` from `curr` visits the chunks and arrives at `stop`. -/
def Linked (mem : Memory) : Addr → List Addr → Addr → Prop
  | curr, [], stop => curr = stop
  | curr, chunk :: rest, stop => curr = chunk ∧ chunk ≠ 0 ∧ Linked mem (header mem chunk).next rest stop

/-- A list of chunks, none of which comes twice or shares a byte of its header with another. -/
structure ChunkList (mem : Memory) (head : Addr) (chunks : List Addr) : Prop where
  linked : Linked mem head chunks 0
  acyclic : chunks.Nodup
  apart : ∀ first ∈ chunks, ∀ second ∈ chunks, first ≠ second → Apart first 17 second 17

section Links
variable {mem after : Memory} {head curr stop : Addr} {pre chunks rest : List Addr} {first second : Addr}

theorem linked_append : Linked mem curr (pre ++ chunks) stop ↔
    ∃ middle, Linked mem curr pre middle ∧ Linked mem middle chunks stop := by
  induction pre generalizing curr with
  | nil => simp [Linked]
  | cons chunk rest ih => simp only [List.cons_append, Linked, ih, and_assoc, exists_and_left]

theorem linked_frame (same : ∀ chunk ∈ chunks, header after chunk = header mem chunk)
    (linked : Linked mem curr chunks stop) : Linked after curr chunks stop := by
  induction chunks generalizing curr with
  | nil => exact linked
  | cons chunk rest ih =>
    obtain ⟨here, present, tail⟩ := linked
    refine ⟨here, present, ?_⟩
    rw [same chunk List.mem_cons_self]
    exact ih (fun other member => same other (List.mem_cons_of_mem _ member)) tail

theorem linked_present (linked : Linked mem curr chunks stop) : ∀ chunk ∈ chunks, chunk ≠ 0 := by
  induction chunks generalizing curr with
  | nil => exact fun chunk member => absurd member List.not_mem_nil
  | cons chunk rest ih =>
    obtain ⟨_, present, tail⟩ := linked
    exact List.forall_mem_cons.mpr ⟨present, ih tail⟩

/-- So many distinct places below a bound. -/
theorem places_le {places : List Nat} (distinct : places.Nodup) (below : ∀ place ∈ places, place < bound) :
    places.length ≤ bound := by
  have few := (distinct.subperm fun place member => List.mem_range.mpr (below place member)).length_le
  rwa [List.length_range] at few

/-- There are fewer chunks than addresses. -/
theorem ChunkList.length_lt (list : ChunkList mem head chunks) : chunks.length < maxTurns := by
  have distinct : ((0 :: chunks).map BitVec.toNat).Nodup := by
    refine List.Nodup.map (fun first second same => BitVec.eq_of_toNat_eq same) (List.nodup_cons.mpr ⟨?_, list.acyclic⟩)
    exact fun member => linked_present list.linked 0 member rfl
  have few := places_le distinct fun place member => by
    obtain ⟨chunk, _, rfl⟩ := List.mem_map.mp member
    exact chunk.isLt
  rwa [List.length_map, List.length_cons] at few

/-- The chunk after the next one is linked to the first, which records the size of both. -/
def joined (mem : Memory) (first second : Addr) : Memory :=
  setNext (setSize mem first ((header mem first).size + (header mem second).size)) first
    (header mem second).next

theorem joined_first (mem : Memory) (first second : Addr) : header (joined mem first second) first =
    ⟨(header mem second).next, (header mem first).used, (header mem first).size + (header mem second).size⟩ := by
  simp [joined]

theorem joined_other (apart : Apart chunk 17 first 17) :
    header (joined mem first second) chunk = header mem chunk := by
  rw [joined, header_setNext_apart apart, header_setSize_apart apart]

section Turns
variable (list : ChunkList mem head (pre ++ first :: second :: rest))
include list

theorem ChunkList.joined_other
    (member : chunk ∈ pre ++ rest) : header (joined mem first second) chunk = header mem chunk := by
  have other : chunk ≠ first := by
    rintro rfl
    have distinct := List.nodup_middle.mp list.acyclic
    refine (List.nodup_cons.mp distinct).1 ?_
    rw [List.mem_append] at member ⊢
    exact member.imp_right (List.mem_cons_of_mem second)
  refine ChunkMerging.joined_other (list.apart chunk ?_ first (by simp) other)
  rw [List.mem_append] at member ⊢
  exact member.imp_right fun later => List.mem_cons_of_mem _ (List.mem_cons_of_mem _ later)

/-- A turn that finds two unused chunks makes one of them and stays. -/
theorem mergeTurn_joins (idle : (recorded mem first).used = false ∧ (recorded mem second).used = false) :
    mergeTurn (mem, first) = .again (joined mem first second, first) ∧
      ChunkList (joined mem first second) head (pre ++ first :: rest) := by
  obtain ⟨middle, before, rfl, present, next, present', tail⟩ := linked_append.mp list.linked
  have distinct : second ≠ middle := by
    rintro rfl
    have twice := (List.nodup_append.mp list.acyclic).2.1
    exact (List.nodup_cons.mp twice).1 List.mem_cons_self
  have apart := list.apart second (by simp) middle (by simp) distinct
  have both : (!(header mem middle).used && !(header mem second).used) = true := by
    have first := idle.1
    have second := idle.2
    simp only [recorded] at first second
    rw [first, second]
    rfl
  constructor
  · simp only [mergeTurn, next, if_neg present, if_neg present', if_pos both, header_setSize_apart apart, joined]
  · have shorter : (pre ++ middle :: rest).Sublist (pre ++ middle :: second :: rest) :=
      (List.Sublist.refl pre).append ((List.sublist_cons_self second rest).cons_cons middle)
    refine ⟨linked_append.mpr ⟨middle, ?_, rfl, present, ?_⟩, list.acyclic.sublist shorter, ?_⟩
    · exact linked_frame (fun chunk member => list.joined_other (List.mem_append_left _ member)) before
    · rw [joined_first]
      exact linked_frame (fun chunk member => list.joined_other (List.mem_append_right _ member)) tail
    · intro chunk member other member'
      exact list.apart chunk (shorter.subset member) other (shorter.subset member')

/-- A turn that finds one of them in use goes on. -/
theorem mergeTurn_goes (busy : ¬ ((recorded mem first).used = false ∧ (recorded mem second).used = false)) :
    mergeTurn (mem, first) = .again (mem, second) := by
  obtain ⟨middle, _, rfl, present, next, present', _⟩ := linked_append.mp list.linked
  have used : ¬ (!(header mem middle).used && !(header mem second).used) = true := by
    simpa [recorded] using busy
  simp only [mergeTurn, next, if_neg present, if_neg present', if_neg used]

end Turns

theorem mergeTurn_null (mem : Memory) : mergeTurn (mem, 0) = .leave mem := rfl

theorem mergeTurn_last (list : ChunkList mem head (pre ++ [first])) : mergeTurn (mem, first) = .leave mem := by
  obtain ⟨middle, _, rfl, present, last⟩ := linked_append.mp list.linked
  have last : (header mem middle).next = 0 := last
  rw [mergeTurn, if_neg present, if_pos last]

end Links

section Merging
variable {mem : Memory} {head : Addr} {pre chunks : List Addr}

/-- The merging loop from any chunk on. What it leaves is the merged list, and the headers
before it are not touched. -/
theorem merge_linked (list : ChunkList mem head (pre ++ chunks)) (fuel : chunks.length < turns) :
    ∃ merged left, iterate mergeTurn turns (mem, chunks.headD 0) = some merged ∧ ChunkList merged head (pre ++ left) ∧
      left.map (recorded merged) = merge Chunk.used join (chunks.map (recorded mem)) ∧
      ∀ chunk ∈ pre, header merged chunk = header mem chunk := by
  induction turns generalizing mem pre chunks with
  | zero => omega
  | succ turns ih =>
    match chunks with
    | [] =>
      refine ⟨mem, [], iterate_leave (mergeTurn_null mem) (Nat.succ_pos turns), list, ?_, fun _ _ => rfl⟩
      rw [List.map_nil, merge]
    | [chunk] =>
      refine ⟨mem, [chunk], iterate_leave (mergeTurn_last list) (Nat.succ_pos turns), list, ?_, fun _ _ => rfl⟩
      rw [List.map_singleton, merge]
    | first :: second :: rest =>
      by_cases idle : (recorded mem first).used = false ∧ (recorded mem second).used = false
      · obtain ⟨asked, shorter⟩ := mergeTurn_joins list idle
        obtain ⟨merged, left, ran, kept, records, before⟩ := ih shorter (Nat.lt_of_succ_lt_succ fuel)
        refine ⟨merged, left, (iterate_again asked).trans ran, kept, ?_, fun chunk member => ?_⟩
        · have others : rest.map (recorded (joined mem first second)) = rest.map (recorded mem) := by
            refine List.map_congr_left fun chunk member => ?_
            rw [recorded, list.joined_other (List.mem_append_right _ member), recorded]
          have both : recorded (joined mem first second) first = join (recorded mem first) (recorded mem second) := by
            rw [recorded, joined_first]
            rfl
          rw [records, List.map_cons, others, both, List.map_cons, List.map_cons, merge_join idle]
        · rw [before chunk member, list.joined_other (List.mem_append_left _ member)]
      · obtain ⟨merged, left, ran, kept, records, before⟩ :=
          ih (show ChunkList mem head ((pre ++ [first]) ++ second :: rest) by simpa using list)
            (Nat.lt_of_succ_lt_succ fuel)
        refine ⟨merged, first :: left, (iterate_again (mergeTurn_goes list idle)).trans ran, by simpa using kept, ?_,
          fun chunk member => before chunk (List.mem_append_left _ member)⟩
        have same : recorded merged first = recorded mem first := by
          rw [recorded, before first (by simp), recorded]
        rw [List.map_cons, records, same, List.map_cons, List.map_cons, List.map_cons, merge_keep idle]

/-- A list that is merged is walked through and left alone. -/
theorem merge_walks (list : ChunkList mem head (pre ++ chunks))
    (settled : Settled Chunk.used (chunks.map (recorded mem))) (fuel : chunks.length < turns) :
    iterate mergeTurn turns (mem, chunks.headD 0) = some mem := by
  induction turns generalizing pre chunks with
  | zero => omega
  | succ turns ih =>
    match chunks with
    | [] => exact iterate_leave (mergeTurn_null mem) (Nat.succ_pos turns)
    | [chunk] => exact iterate_leave (mergeTurn_last list) (Nat.succ_pos turns)
    | first :: second :: rest =>
      obtain ⟨beside, settled⟩ := List.isChain_cons_cons.mp settled
      have busy : ¬ ((recorded mem first).used = false ∧ (recorded mem second).used = false) := by
        rintro ⟨idle, unused⟩
        rw [idle, unused] at beside
        cases beside <;> contradiction
      refine (iterate_again (mergeTurn_goes list busy)).trans ?_
      exact ih (show ChunkList mem head ((pre ++ [first]) ++ second :: rest) by simpa using list) settled
        (Nat.lt_of_succ_lt_succ fuel)

theorem ChunkList.head_eq (list : ChunkList mem head chunks) : chunks.headD 0 = head := by
  cases chunks with
  | nil => exact Eq.symm list.linked
  | cons chunk rest => exact list.linked.1.symm

end Merging

end LunaOS.ChunkMerging
