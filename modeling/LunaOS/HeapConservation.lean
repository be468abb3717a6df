import LunaOS.FreelistSafety
import LunaOS.Coalescing
import Mathlib.Algebra.GroupWithZero.Nat

/-! What the kernel heap's chunks record in total. A request takes its own size and
a header from an unused chunk, whose record counted both; a release gives back the
size alone, and merging adds records without the header between them. Every request
that was granted therefore costs one header for good. -/
namespace LunaOS.HeapConservation
open Coalescing ByteMemory BoundedLoop FreelistAllocator FreelistLayout FreelistSafety

def total (blocks : List Block) : Nat := (blocks.map Block.size).sum

@[simp] theorem total_append (first second : List Block) : total (first ++ second) = total first + total second := by
  simp [total]

@[simp] theorem total_cons (block : Block) (rest : List Block) : total (block :: rest) = block.size + total rest := by
  simp [total]

@[simp] theorem total_nil : total [] = 0 := rfl

theorem total_coalesce (blocks : List Block) : total (coalesce blocks) = total blocks := by
  rw [coalesce_eq_merge]
  exact merge_weight Block.size (fun _ _ => rfl) blocks

theorem carves_total (carves : Carves size blocks after) : total after + 17 = total blocks := by
  obtain ⟨pre, block, post, rfl, _, fits, rfl⟩ := carves
  simp only [carve, total_append, total_cons, total_nil]
  omega

theorem releases_total (releases : Releases blocks after) : total after = total blocks := by
  obtain ⟨pre, block, post, rfl, _, rfl⟩ := releases
  rw [total_coalesce]
  simp [release]

theorem settled_coalesce (blocks : List Block) : Settled Block.used (coalesce blocks) := by
  rw [coalesce_eq_merge]
  exact merge_settled absorb_used blocks

theorem carves_settled (settled : Settled Block.used blocks) (carves : Carves size blocks after) :
    Settled Block.used after := by
  obtain ⟨pre, block, post, rfl, idle, _, rfl⟩ := carves
  exact settled_carve settled idle rfl (.cons_cons (.inl rfl) (.singleton _))

/-! ## Runs -/

/-- Allocations, frees of live pointers and the owners' stores, from `init` on, with the
requests and what each returned. -/
inductive Served (mem : Memory) (start finish : Addr) : Heap → List (BitVec 64 × Addr) → Prop
  | init : Served mem start finish (boot mem start finish) []
  | allocate {heap : Heap} {requests : List (BitVec 64 × Addr)} (size : BitVec 64) {pointer : Addr} {after : Memory} :
      Served mem start finish heap requests → sizeofChunkHeader.toNat + size.toNat < 2 ^ 64 →
      allocate heap.head heap.mem size = some (pointer, after) →
      Served mem start finish { heap with
        mem := after
        live := if pointer = 0 then heap.live else (pointer, size) :: heap.live } ((size, pointer) :: requests)
  | free {heap : Heap} {requests : List (BitVec 64 × Addr)} (pointer : Addr) (size : BitVec 64) {freed : BitVec 64}
      {after : Memory} : Served mem start finish heap requests → (pointer, size) ∈ heap.live →
      free heap.head heap.mem pointer = some (freed, after) →
      Served mem start finish { heap with mem := after, live := heap.live.erase (pointer, size) } requests
  | store {heap : Heap} {requests : List (BitVec 64 × Addr)} (pointer : Addr) (size : BitVec 64) (offset count : Nat)
      (bytes : Nat → Byte) : Served mem start finish heap requests → (pointer, size) ∈ heap.live →
      offset + count ≤ size.toNat →
      Served mem start finish
        { heap with mem := write heap.mem (pointer + BitVec.ofNat 64 offset) count bytes } requests

/-- How many requests returned a pointer. -/
def granted (requests : List (BitVec 64 × Addr)) : Nat := requests.countP fun request => request.2 ≠ 0

theorem granted_cons {pointer : Addr} (given : pointer ≠ 0) :
    granted ((size, pointer) :: requests) = granted requests + 1 :=
  List.countP_cons_of_pos (by simpa using given)

theorem granted_refused : granted ((size, 0) :: requests) = granted requests :=
  List.countP_cons_of_neg (by simp)

/-- The list of a heap is one free chunk of `size` bytes at `start`. -/
def SingleFree (heap : Heap) (start : Addr) (size : BitVec 64) : Prop :=
  start ≠ 0 ∧ heap.head = start ∧ header heap.mem start = ⟨0, false, size⟩

/-- The chunks are merged and record the area less one header for each grant. -/
structure Conserves (start finish : Addr) (heap : Heap) (count : Nat) (blocks : List Block) : Prop where
  sound : Sound heap blocks
  head : heap.head = start
  settled : Settled Block.used blocks
  recorded : total blocks + 17 * count = finish.toNat - start.toNat
  owned : heap.live.length ≤ count

variable {mem : Memory} {start finish : Addr} {heap : Heap} {requests : List (BitVec 64 × Addr)}

theorem Served.conserves (present : start ≠ 0) (order : start.toNat ≤ finish.toNat)
    (room : finish.toNat + 34 ≤ 2 ^ 64) (served : Served mem start finish heap requests) :
    ∃ blocks, Conserves start finish heap (granted requests) blocks := by
  induction served with
  | init => exact ⟨_, boot_sound mem present order room, rfl, .singleton _, by simp [granted], by simp [boot]⟩
  | allocate size _ request ran ih =>
    obtain ⟨blocks, sound, head, settled, recorded, owned⟩ := ih
    obtain ⟨after, soundAfter, missed | carved⟩ := allocate_sound sound request ran
    · obtain ⟨rfl, rfl⟩ := missed
      rw [granted_refused]
      exact ⟨after, soundAfter, head, settled, recorded, owned⟩
    · obtain ⟨given, carves⟩ := carved
      have spent := carves_total carves
      refine ⟨after, soundAfter, head, carves_settled settled carves, ?_, ?_⟩
      · rw [granted_cons given]
        omega
      · rw [if_neg given, List.length_cons, granted_cons given]
        omega
  | free pointer size _ held ran ih =>
    obtain ⟨blocks, sound, head, _, recorded, owned⟩ := ih
    obtain ⟨after, soundAfter, releases, _⟩ := free_sound sound held ran
    refine ⟨after, soundAfter, head, ?_, by rwa [releases_total releases], Nat.le_trans (List.length_erase_le) owned⟩
    obtain ⟨_, _, _, _, _, rfl⟩ := releases
    exact settled_coalesce _
  | store pointer size offset count bytes _ held inside ih =>
    obtain ⟨blocks, sound, head, settled, recorded, owned⟩ := ih
    exact ⟨blocks, store_sound sound held inside, head, settled, recorded, owned⟩

/-- With everything freed there is one free chunk, a header short for each grant. -/
theorem Conserves.single {blocks : List Block} {count : Nat} (conserves : Conserves start finish heap count blocks)
    (present : start ≠ 0) (idle : heap.live = []) :
    ∃ size, SingleFree heap start size ∧ size.toNat + 17 * count = finish.toNat - start.toNat := by
  obtain ⟨sound, head, settled, recorded, _⟩ := conserves
  have unused : ∀ block ∈ blocks, block.used = false := by
    intro block member
    have none : payloads blocks = [] := by
      have same := sound.live
      rw [idle, List.map_nil] at same
      exact List.nil_perm.mp same
    rw [← Bool.not_eq_true]
    intro used
    have payload := mem_payloads.mpr ⟨block, member, used, rfl⟩
    rw [none] at payload
    cases payload
  have nonempty : blocks ≠ [] := by
    obtain ⟨front, tail, shape, _⟩ := sound.layout.last
    simp [shape]
  obtain ⟨block, rfl⟩ := settled_single settled unused nonempty
  obtain ⟨records, last⟩ := sound.stored
  rw [head] at records last
  refine ⟨(header heap.mem start).size, ⟨present, head, ?_⟩, ?_⟩
  · have free := records.flag.trans (unused block (by simp))
    have ends : (header heap.mem start).next = 0 := last
    rw [← ends, ← free]
  · rw [records.extent]
    simpa using recorded

/-- A lone chunk that is too small is passed over. -/
theorem allocate_refused {mem : Memory} {head : Addr} (present : head ≠ 0) (pos : size ≠ 0)
    (lone : header mem head = ⟨0, false, extent⟩) (short : ¬ sizeofChunkHeader + size ≤ extent) :
    allocate head mem size = some (0, mem) := by
  have onward : allocateTurn mem size head = .again 0 := by
    rw [allocateTurn, if_neg present, lone]
    simp [short]
  have ends : allocateTurn mem size 0 = .leave (0, mem) := by simp [allocateTurn]
  rw [allocate, if_neg pos, show maxTurns = 2 ^ 64 - 2 + 1 + 1 by decide, iterate_again onward]
  exact iterate_leave ends (by omega)

/-- While nothing was granted, what is refused is an empty request or one that the area
cannot hold with its header. -/
theorem Conserves.refuses_iff {blocks : List Block} (conserves : Conserves start finish heap 0 blocks)
    (present : start ≠ 0) (order : start.toNat ≤ finish.toNat) (room : finish.toNat + 34 ≤ 2 ^ 64)
    (request : 17 + size.toNat < 2 ^ 64) (ran : allocate heap.head heap.mem size = some (pointer, after)) :
    pointer = 0 ↔ size = 0 ∨ finish.toNat - start.toNat < 17 + size.toNat := by
  have idle : heap.live = [] := List.length_eq_zero_iff.mp (Nat.le_zero.mp conserves.owned)
  obtain ⟨extent, ⟨_, head, lone⟩, whole⟩ := conserves.single present idle
  rw [head] at ran
  have asked : sizeofChunkHeader + size ≤ extent ↔ 17 + size.toNat ≤ finish.toNat - start.toNat := by
    rw [← whole, BitVec.le_def, BitVec.toNat_add, Nat.mod_eq_of_lt (by exact request)]
    rfl
  by_cases zero : size = 0
  · rw [allocate, if_pos zero, Option.some.injEq, Prod.mk.injEq] at ran
    exact iff_of_true ran.1.symm (.inl zero)
  · by_cases fits : sizeofChunkHeader + size ≤ extent
    · rw [allocate_granted present zero lone fits, Option.some.injEq, Prod.mk.injEq] at ran
      have within := asked.mp fits
      have given : pointer ≠ 0 := by
        rw [← ran.1]
        refine FreelistRefinement.present_of_pos ?_
        rw [BitVec.toNat_add, show sizeofChunkHeader.toNat = 17 from rfl]
        omega
      exact iff_of_false given (by rintro (none | short); exacts [zero none, by omega])
    · rw [allocate_refused present zero lone fits, Option.some.injEq, Prod.mk.injEq] at ran
      rw [asked] at fits
      exact iff_of_true ran.1.symm (.inr (by omega))

/-- Nothing was granted exactly if no request was one that the whole area can hold. -/
theorem Served.granted_eq_zero_iff (present : start ≠ 0) (order : start.toNat ≤ finish.toNat)
    (room : finish.toNat + 34 ≤ 2 ^ 64) (served : Served mem start finish heap requests) : granted requests = 0 ↔
      ∀ request ∈ requests, request.1 = 0 ∨ finish.toNat - start.toNat < 17 + request.1.toNat := by
  induction served with
  | init => simp [granted]
  | @allocate heap requests size pointer after served request ran ih =>
    obtain ⟨blocks, conserves⟩ := served.conserves present order room
    rw [List.forall_mem_cons, ← ih]
    by_cases null : pointer = 0
    · subst null
      rw [granted_refused]
      refine ⟨fun none => ⟨?_, none⟩, And.right⟩
      exact ((none ▸ conserves).refuses_iff present order room request ran).mp rfl
    · rw [granted_cons null]
      refine iff_of_false (Nat.succ_ne_zero _) ?_
      rintro ⟨refused, none⟩
      exact null (((none ▸ conserves).refuses_iff present order room request ran).mpr refused)
  | free _ _ _ _ _ ih => exact ih
  | store _ _ _ _ _ _ _ _ ih => exact ih

/-- **Conservation.** Once everything is freed the list is what `init` made of the area
exactly when every request was empty or, with its header, larger than the area. -/
theorem heap_restored_iff (mem : Memory) (start finish : Addr) (order : start.toNat ≤ finish.toNat)
    (room : finish.toNat + 34 ≤ 2 ^ 64) (heap : Heap) (requests : List (BitVec 64 × Addr))
    (served : Served mem start finish heap requests) (idle : heap.live = []) :
    SingleFree heap start (finish - start) ↔ start ≠ 0 ∧
      ∀ request ∈ requests, request.1 = 0 ∨ finish.toNat - start.toNat < 17 + request.1.toNat := by
  have extent : (finish - start).toNat = finish.toNat - start.toNat :=
    BitVec.toNat_sub_of_le (BitVec.le_def.mpr order)
  constructor
  · rintro ⟨present, head, whole⟩
    obtain ⟨blocks, conserves⟩ := served.conserves present order room
    obtain ⟨size, ⟨_, _, found⟩, recorded⟩ := conserves.single present idle
    rw [found, ChunkHeader.mk.injEq] at whole
    rw [whole.2.2, extent] at recorded
    exact ⟨present, (served.granted_eq_zero_iff present order room).mp (by omega)⟩
  · rintro ⟨present, refused⟩
    obtain ⟨blocks, conserves⟩ := served.conserves present order room
    obtain ⟨size, single, recorded⟩ := conserves.single present idle
    rw [(served.granted_eq_zero_iff present order room).mpr refused] at recorded
    have same : size = finish - start := BitVec.eq_of_toNat_eq (by rw [extent, ← recorded]; rfl)
    exact same ▸ single

/-- The memory of a heap as the kernel boots it. -/
def defaultMemory : Memory := init (fun _ => 0) heapDefaultStart heapDefaultEnd

theorem default_header : header defaultMemory heapDefaultStart = ⟨0, false, 0x100000⟩ := by
  simp [defaultMemory, init, heapDefaultStart, heapDefaultEnd]

/-- A heap that refused its only request is as `init` left it. -/
theorem heap_restored_iff_refused : ∃ heap, Served (fun _ => 0) heapDefaultStart heapDefaultEnd heap [(0x100000, 0)] ∧
    SingleFree heap heapDefaultStart (heapDefaultEnd - heapDefaultStart) := by
  have refused : allocate heapDefaultStart defaultMemory 0x100000 = some (0, defaultMemory) :=
    allocate_refused (by decide) (by decide) default_header (by decide)
  have served : Served (fun _ => 0) heapDefaultStart heapDefaultEnd _ [(0x100000, 0)] :=
    .allocate 0x100000 .init (by decide) refused
  exact ⟨_, served, (heap_restored_iff _ _ _ (by decide) (by decide) _ _ served rfl).mpr ⟨by decide,
    List.forall_mem_singleton.mpr (.inr (by decide))⟩⟩

/-- The largest request the kernel's heap can grant, freed again, leaves the heap a
header short, and the same request is refused. -/
theorem request_not_repeated : ∃ heap,
    Served (fun _ => 0) heapDefaultStart heapDefaultEnd heap [(0xFFFEF, heapDefaultStart + 17)] ∧
    heap.live = [] ∧ SingleFree heap heapDefaultStart 0xFFFEF ∧
    allocate heap.head heap.mem 0xFFFEF = some (0, heap.mem) := by
  have found : allocate heapDefaultStart defaultMemory 0xFFFEF =
      some (heapDefaultStart + 17, split defaultMemory heapDefaultStart 0xFFFEF) :=
    allocate_granted (by decide) (by decide) default_header (by decide)
  have taken : Served (fun _ => 0) heapDefaultStart heapDefaultEnd
      ⟨heapDefaultStart, split defaultMemory heapDefaultStart 0xFFFEF, heapDefaultEnd.toNat,
        [(heapDefaultStart + 17, 0xFFFEF)]⟩ [(0xFFFEF, heapDefaultStart + 17)] :=
    .allocate 0xFFFEF .init (by decide) found
  obtain ⟨_, held⟩ := taken.conserves (by decide) (by decide) (by decide)
  obtain ⟨⟨freed, after⟩, ran⟩ := Option.isSome_iff_exists.mp (free_returns held.sound (List.mem_singleton.mpr rfl))
  have given : Served (fun _ => 0) heapDefaultStart heapDefaultEnd
      ⟨heapDefaultStart, after, heapDefaultEnd.toNat, []⟩ [(0xFFFEF, heapDefaultStart + 17)] := by
    simpa using Served.free (heapDefaultStart + 17) 0xFFFEF taken (by simp) ran
  obtain ⟨blocks, conserves⟩ := given.conserves (by decide) (by decide) (by decide)
  obtain ⟨size, single, recorded⟩ := conserves.single (by decide) rfl
  have same : size = 0xFFFEF := by
    apply BitVec.eq_of_toNat_eq
    have extent : heapDefaultEnd.toNat - heapDefaultStart.toNat = 0x100000 := by decide
    rw [extent, show granted [(0xFFFEF, heapDefaultStart + 17)] = 1 by decide] at recorded
    rw [show (0xFFFEF : BitVec 64).toNat = 0xFFFEF by decide]
    omega
  rw [same] at single
  have present : heapDefaultStart ≠ 0 := by decide
  exact ⟨_, given, rfl, single, allocate_refused present (by decide) single.2.2 (by decide)⟩

end LunaOS.HeapConservation
