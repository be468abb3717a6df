import LunaOS.FreelistAllocator
import LunaOS.Coalescing
import Mathlib.Data.List.Perm.Basic
import Mathlib.Data.List.Pairwise

/-! The chunk list as an abstract layout of the managed area. A free chunk's
recorded size counts its own header after `init` and a split but not after a
`free`, so the layout keeps only what every operation preserves: a chunk that is
not the last leaves a whole header of slack before its successor, and the last
one is unused and records no byte beyond the area. -/
namespace LunaOS.FreelistLayout
open Coalescing

/-- A chunk by position: the header at `addr` records `size`. -/
structure Block where
  addr : Nat
  used : Bool
  size : Nat

/-- `first` ends, header slack included, before `second` begins. -/
def Block.Before (first second : Block) : Prop := first.addr + 17 + first.size ≤ second.addr

structure Layout (limit : Nat) (blocks : List Block) : Prop where
  spaced : blocks.Pairwise Block.Before
  last : ∃ front tail, blocks = front ++ [tail] ∧ tail.used = false ∧ tail.addr + tail.size ≤ limit

/-- The payload regions in use, as address and length. -/
def payloads (blocks : List Block) : List (Nat × Nat) :=
  (blocks.filter Block.used).map fun block => (block.addr + 17, block.size)

@[simp] theorem payloads_append (first second : List Block) :
    payloads (first ++ second) = payloads first ++ payloads second := by
  simp [payloads]

@[simp] theorem payloads_cons (block : Block) (rest : List Block) : payloads (block :: rest) =
      if block.used then (block.addr + 17, block.size) :: payloads rest else payloads rest := by
  cases used : block.used <;> simp [payloads, used]

@[simp] theorem payloads_nil : payloads [] = [] := rfl

theorem mem_payloads : region ∈ payloads blocks ↔
    ∃ block ∈ blocks, block.used = true ∧ region = (block.addr + 17, block.size) := by
  simp only [payloads, List.mem_map, List.mem_filter]
  constructor
  · rintro ⟨block, ⟨member, used⟩, rfl⟩
    exact ⟨block, member, used, rfl⟩
  · rintro ⟨block, member, used, rfl⟩
    exact ⟨block, ⟨member, used⟩, rfl⟩

/-- Every chunk records only bytes of the area. -/
theorem layout_inside (layout : Layout limit blocks) (member : block ∈ blocks) : block.addr + block.size ≤ limit := by
  obtain ⟨front, tail, rfl, _, inside⟩ := layout.last
  rcases List.mem_append.mp member with early | last
  · have gap := (List.pairwise_append.mp layout.spaced).2.2 block early tail (by simp)
    simp only [Block.Before] at gap
    omega
  · rw [List.mem_singleton.mp last]
    exact inside

/-- A run of chunks may be replaced by any spaced run inside its extent that
ends unused. Carving, releasing, merging and growing are its instances. -/
theorem layout_replace (front : List Block) {pre olds post : List Block} {final : Block}
    (layout : Layout limit (pre ++ olds ++ post)) (inner : (front ++ [final]).Pairwise Block.Before)
    (starts : ∀ new ∈ front ++ [final], ∃ old ∈ olds, old.addr ≤ new.addr)
    (ends : ∀ new ∈ front ++ [final], ∃ old ∈ olds, new.addr + new.size ≤ old.addr + old.size)
    (idle : final.used = false) : Layout limit (pre ++ (front ++ [final]) ++ post) where
  spaced := by
    obtain ⟨outer, postSpaced, toPost⟩ := List.pairwise_append.mp layout.spaced
    obtain ⟨preSpaced, _, fromPre⟩ := List.pairwise_append.mp outer
    have preNew : ∀ early ∈ pre, ∀ new ∈ front ++ [final], early.Before new := by
      intro early before new member
      obtain ⟨old, held, floor⟩ := starts new member
      exact Nat.le_trans (fromPre early before old held) floor
    refine List.pairwise_append.mpr
      ⟨List.pairwise_append.mpr ⟨preSpaced, inner, preNew⟩, postSpaced, ?_⟩
    intro block member later after
    rcases List.mem_append.mp member with early | new
    · exact toPost block (List.mem_append_left _ early) later after
    · obtain ⟨old, held, ceiling⟩ := ends block new
      have slack := toPost old (List.mem_append_right _ held) later after
      simp only [Block.Before] at slack ⊢
      omega
  last := by
    rcases List.eq_nil_or_concat post with empty | ⟨early, tail, concat⟩
    · obtain ⟨old, held, ceiling⟩ := ends final (by simp)
      have inside := layout_inside layout (List.mem_append_left _ (List.mem_append_right _ held))
      exact ⟨pre ++ front, final, by simp [empty], idle, Nat.le_trans ceiling inside⟩
    · obtain ⟨before, last, shape, unused, inside⟩ := layout.last
      rw [concat, List.concat_eq_append, ← List.append_assoc] at shape
      cases (List.append_inj' shape rfl).2
      exact ⟨pre ++ (front ++ [final]) ++ early, tail, by simp [concat], unused, inside⟩

/-- Carving a request out of an unused chunk: the payload and the remainder. -/
def carve (block : Block) (size : Nat) : List Block :=
  [⟨block.addr, true, size⟩] ++ [⟨block.addr + 17 + size, false, block.size - (17 + size)⟩]

theorem layout_carve {pre post : List Block} (layout : Layout limit (pre ++ [block] ++ post))
    (fits : 17 + size ≤ block.size) : Layout limit (pre ++ carve block size ++ post) := by
  refine layout_replace _ layout (by simp [Block.Before]) ?_ ?_ rfl
  all_goals
    intro part member
    refine ⟨block, by simp, ?_⟩
    simp only [List.cons_append, List.nil_append, List.mem_cons, List.not_mem_nil, or_false] at member
    rcases member with rfl | rfl <;> (simp only; omega)

theorem payloads_carve {pre post : List Block} (idle : block.used = false) :
    (payloads (pre ++ carve block size ++ post)).Perm
      ((block.addr + 17, size) :: payloads (pre ++ [block] ++ post)) := by
  simp only [carve, payloads_append, payloads_cons, idle, payloads_nil, ↓reduceIte,
    Bool.false_eq_true, List.append_assoc, List.singleton_append]
  exact List.perm_middle

/-- Marking a chunk unused. -/
def release (block : Block) : Block := { block with used := false }

theorem layout_release {pre post : List Block} (layout : Layout limit (pre ++ [block] ++ post)) :
    Layout limit (pre ++ [release block] ++ post) :=
  layout_replace [] layout (by simp) (by simp [release]) (by simp [release]) rfl

theorem payloads_release {pre post : List Block} (used : block.used = true) : (payloads (pre ++ [block] ++ post)).Perm
      ((block.addr + 17, block.size) :: payloads (pre ++ [release block] ++ post)) := by
  simp only [payloads_append, payloads_cons, used, release, ↓reduceIte, Bool.false_eq_true,
    List.append_assoc, List.singleton_append]
  exact List.perm_middle

/-- Absorbing the next chunk: its header stays behind as unrecorded slack. -/
def absorb (first second : Block) : Block := { first with size := first.size + second.size }

theorem absorb_used (first second : Block) : (absorb first second).used = first.used := rfl

theorem layout_absorb (pre post : List Block)
    (layout : Layout limit (pre ++ [first, second] ++ post)) (idle : first.used = false) :
    Layout limit (pre ++ [absorb first second] ++ post) := by
  have gap : first.Before second := by
    have inner := (List.pairwise_append.mp (List.pairwise_append.mp layout.spaced).1).2.1
    exact (List.pairwise_cons.mp inner).1 second (by simp)
  refine layout_replace [] layout (by simp) ?_ ?_ idle
  · intro part member
    rw [List.mem_singleton.mp member]
    exact ⟨first, by simp, Nat.le_refl _⟩
  · intro part member
    rw [List.mem_singleton.mp member]
    refine ⟨second, by simp, ?_⟩
    simp only [Block.Before, absorb] at gap ⊢
    omega

/-- One pass of merging from the first chunk on. -/
def coalesce : List Block → List Block
  | [] => []
  | [block] => [block]
  | first :: second :: rest =>
    if first.used = false ∧ second.used = false then coalesce (absorb first second :: rest)
    else first :: coalesce (second :: rest)
termination_by blocks => blocks.length

theorem layout_coalesce (pre : List Block) (layout : Layout limit (pre ++ blocks)) :
    Layout limit (pre ++ coalesce blocks) := by
  fun_induction coalesce blocks generalizing pre with
  | case1 => exact layout
  | case2 block => exact layout
  | case3 first second rest idle ih =>
    exact ih pre (by simpa using layout_absorb pre rest (by simpa using layout) idle.1)
  | case4 first second rest busy ih =>
    simpa using ih (pre ++ [first]) (by simpa using layout)

theorem coalesce_eq_merge (blocks : List Block) : coalesce blocks = merge Block.used absorb blocks := by
  fun_induction coalesce blocks with
  | case1 => rw [merge]
  | case2 block => rw [merge]
  | case3 first second rest idle ih => rw [ih, merge_join idle]
  | case4 first second rest busy ih => rw [ih, merge_keep busy]

theorem payloads_coalesce (blocks : List Block) : payloads (coalesce blocks) = payloads blocks := by
  rw [coalesce_eq_merge, payloads, payloads, merge_filter absorb_used]

/-- Every chunk that is left begins where one began before. -/
theorem coalesce_addr (member : block ∈ coalesce blocks) : ∃ old ∈ blocks, old.addr = block.addr := by
  fun_induction coalesce blocks with
  | case1 => cases member
  | case2 other => exact ⟨block, member, rfl⟩
  | case3 first second rest idle ih =>
    obtain ⟨old, inside, same⟩ := ih member
    rcases List.mem_cons.mp inside with rfl | later
    · exact ⟨first, by simp, same⟩
    · exact ⟨old, by simp [later], same⟩
  | case4 first second rest busy ih =>
    rcases List.mem_cons.mp member with rfl | later
    · exact ⟨block, by simp, rfl⟩
    · obtain ⟨old, inside, same⟩ := ih later
      exact ⟨old, List.mem_cons_of_mem _ inside, same⟩

theorem coalesce_merge (idle : first.used = false) (unused : second.used = false) :
    coalesce (first :: second :: rest) = coalesce (absorb first second :: rest) := by
  rw [coalesce, if_pos ⟨idle, unused⟩]

theorem coalesce_keep (busy : ¬ (first.used = false ∧ second.used = false)) :
    coalesce (first :: second :: rest) = first :: coalesce (second :: rest) := by
  rw [coalesce, if_neg busy]

/-- Two unused chunks at the end may be merged before the pass or by it. -/
theorem coalesce_absorb_last (front : List Block) (idle : tail.used = false) (unused : grown.used = false) :
    coalesce (front ++ [tail, grown]) = coalesce (front ++ [absorb tail grown]) := by
  match front with
  | [] => exact coalesce_merge idle unused
  | [first] =>
    have mergedIdle : (absorb tail grown).used = false := idle
    by_cases free : first.used = false
    · have mergedFree : (absorb first tail).used = false := free
      simp only [List.singleton_append, coalesce_merge free idle, coalesce_merge mergedFree unused,
        coalesce_merge free mergedIdle]
      simp only [absorb, Nat.add_assoc]
    · simp only [List.singleton_append, coalesce_keep (fun both => free both.1), coalesce_merge idle unused]
  | first :: second :: rest =>
    by_cases free : first.used = false ∧ second.used = false
    · simp only [List.cons_append, coalesce_merge free.1 free.2]
      exact coalesce_absorb_last (absorb first second :: rest) idle unused
    · simp only [List.cons_append, coalesce_keep free]
      exact congrArg (first :: ·) (coalesce_absorb_last (second :: rest) idle unused)
termination_by front.length

/-- The chunk that growing first writes, a header past the last one's record. -/
def beyond (tail : Block) (amount : Nat) : Block := ⟨tail.addr + 17 + tail.size, false, amount⟩

/-- Until it is absorbed the new chunk overstates the area by one header. -/
theorem layout_extend {front : List Block} (layout : Layout limit (front ++ [tail])) :
    Layout (limit + 17 + amount) (front ++ [tail, beyond tail amount]) where
  spaced := by
    have spaced : ((front ++ [tail]) ++ [beyond tail amount]).Pairwise Block.Before := by
      refine List.pairwise_append.mpr ⟨layout.spaced, by simp, ?_⟩
      intro block member later after
      rw [List.mem_singleton.mp after]
      rcases List.mem_append.mp member with early | same
      · have gap := (List.pairwise_append.mp layout.spaced).2.2 block early tail (by simp)
        simp only [Block.Before, beyond] at gap ⊢
        omega
      · rw [List.mem_singleton.mp same]
        exact Nat.le_refl _
    simpa using spaced
  last := by
    have inside := layout_inside layout (show tail ∈ _ by simp)
    exact ⟨front ++ [tail], beyond tail amount, by simp, rfl, by simp only [beyond]; omega⟩

/-- The last chunk of an area that grew. -/
def grow (tail : Block) (amount : Nat) : Block := { tail with size := tail.size + amount }

theorem layout_grow {front : List Block} (layout : Layout limit (front ++ [tail]))
    (idle : tail.used = false) : Layout (limit + amount) (front ++ [grow tail amount]) where
  spaced := by
    obtain ⟨early, _, across⟩ := List.pairwise_append.mp layout.spaced
    refine List.pairwise_append.mpr ⟨early, by simp, ?_⟩
    intro block member last same
    rw [List.mem_singleton.mp same]
    exact across block member tail (by simp)
  last := by
    have inside := layout_inside layout (show tail ∈ _ by simp)
    exact ⟨front, grow tail amount, rfl, idle, by simp only [grow]; omega⟩

theorem payloads_grow {front : List Block} (idle : tail.used = false) :
    payloads (front ++ [grow tail amount]) = payloads (front ++ [tail]) := by
  simp [grow, idle]

/-! ## What an operation does to the chunks -/

/-- A request of `size` bytes was carved out of an unused chunk. -/
def Carves (size : Nat) (blocks after : List Block) : Prop :=
  ∃ pre block post, blocks = pre ++ [block] ++ post ∧ block.used = false ∧ 17 + size ≤ block.size ∧
    after = pre ++ carve block size ++ post

/-- A used chunk was released and the list merged. -/
def Releases (blocks after : List Block) : Prop :=
  ∃ pre block post, blocks = pre ++ [block] ++ post ∧ block.used = true ∧
    after = coalesce (pre ++ [release block] ++ post)

/-- The last chunk was enlarged and the list merged. -/
def Grows (amount : Nat) (blocks after : List Block) : Prop :=
  ∃ front tail, blocks = front ++ [tail] ∧ tail.used = false ∧ after = coalesce (front ++ [grow tail amount])

end LunaOS.FreelistLayout
