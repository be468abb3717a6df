import Mathlib.Data.List.Nodup
import Mathlib.Logic.Function.Basic
import Mathlib.Logic.Function.Iterate

/-! Circular doubly linked lists with a sentinel, over any kind of pointer. A
list is described by the nodes met on the way from the sentinel back to it;
taking a node out and putting one in front are stated on the two link functions. -/
namespace LunaOS.CircularList
open Function

variable {ι : Type} {next prev next' prev' : ι → ι}

/-- Following `next` from `first` meets the nodes and then `last`; `prev` is the way back. -/
def Path (next prev : ι → ι) : ι → List ι → ι → Prop
  | first, [], last => next first = last ∧ prev last = first
  | first, node :: rest, last => (next first = node ∧ prev node = first) ∧ Path next prev node rest last

structure Ring (next prev : ι → ι) (sentinel : ι) (nodes : List ι) : Prop where
  path : Path next prev sentinel nodes sentinel
  distinct : (sentinel :: nodes).Nodup

theorem path_append {front back : List ι} : Path next prev first (front ++ node :: back) last ↔
    Path next prev first front node ∧ Path next prev node back last := by
  induction front generalizing first with
  | nil => rfl
  | cons head front ih => simp only [List.cons_append, Path, ih, and_assoc]

theorem path_frame {nodes : List ι} (path : Path next prev first nodes last)
    (forward : ∀ node ∈ first :: nodes, next' node = next node)
    (backward : ∀ node ∈ nodes ++ [last], prev' node = prev node) : Path next' prev' first nodes last := by
  induction nodes generalizing first with
  | nil => exact ⟨(forward first (by simp)).trans path.1, (backward last (by simp)).trans path.2⟩
  | cons head rest ih =>
    obtain ⟨⟨step, back⟩, path⟩ := path
    refine ⟨⟨(forward first (by simp)).trans step, (backward head (by simp)).trans back⟩, ih path ?_ ?_⟩
    · intro node member
      exact forward node (List.mem_cons_of_mem _ member)
    · intro node member
      exact backward node (by simpa using Or.inr (by simpa using member))

theorem Ring.frame (ring : Ring next prev sentinel nodes)
    (forward : ∀ node ∈ sentinel :: nodes, next' node = next node)
    (backward : ∀ node ∈ sentinel :: nodes, prev' node = prev node) : Ring next' prev' sentinel nodes := by
  refine ⟨path_frame ring.path forward ?_, ring.distinct⟩
  intro node member
  exact backward node (by simpa [or_comm] using member)

theorem path_first {nodes : List ι} (path : Path next prev first nodes last) :
    next first = nodes.head?.getD last := by
  cases nodes with
  | nil => exact path.1
  | cons head rest => exact path.1.1

theorem path_last_mem {nodes : List ι} (path : Path next prev first nodes last) : prev last ∈ first :: nodes := by
  induction nodes generalizing first with
  | nil => simp [path.2]
  | cons head rest ih => exact List.mem_cons_of_mem _ (ih path.2)

theorem Ring.first (ring : Ring next prev sentinel nodes) : next sentinel = nodes.head?.getD sentinel :=
  path_first ring.path

theorem Ring.first_mem (ring : Ring next prev sentinel nodes) : next sentinel ∈ sentinel :: nodes := by
  rw [ring.first]
  cases nodes with
  | nil => simp
  | cons head rest => simp

theorem Ring.empty_iff (ring : Ring next prev sentinel nodes) : next sentinel = sentinel ↔ nodes = [] := by
  rw [ring.first]
  cases nodes with
  | nil => simp
  | cons head rest =>
    have fresh := (List.nodup_cons.mp ring.distinct).1
    simp only [List.head?_cons, Option.getD_some, reduceCtorEq, iff_false]
    rintro rfl
    exact fresh List.mem_cons_self

/-- The neighbours of a node are in the ring. -/
theorem Ring.neighbours {front back : List ι} (ring : Ring next prev sentinel (front ++ node :: back)) :
    prev node ∈ sentinel :: (front ++ back) ∧ next node ∈ sentinel :: (front ++ back) := by
  obtain ⟨before, after⟩ := path_append.mp ring.path
  refine ⟨List.cons_subset_cons _ (List.subset_append_left _ _) (path_last_mem before), ?_⟩
  rw [path_first after]
  cases back with
  | nil => simp
  | cons head rest => simp

/-- Following the links from the sentinel never leaves the ring. -/
theorem Ring.iterate_mem (ring : Ring next prev sentinel nodes) (steps : Nat) :
    next^[steps] sentinel ∈ sentinel :: nodes := by
  induction steps with
  | zero => exact List.mem_cons_self
  | succ steps ih =>
    rw [Function.iterate_succ_apply']
    rcases List.mem_cons.mp ih with same | member
    · rw [same]
      exact ring.first_mem
    · obtain ⟨front, back, split⟩ := List.append_of_mem member
      rw [split] at ring ⊢
      refine List.cons_subset_cons _ ?_ ring.neighbours.2
      exact List.append_subset.mpr
        ⟨List.subset_append_left _ _, List.subset_append_of_subset_right _ (List.subset_cons_self _ _)⟩

section Updates
variable [DecidableEq ι]

/-- The way to `last` may be made to end at another node instead. -/
theorem path_end {nodes : List ι} (path : Path next prev first nodes last) (distinct : (first :: nodes).Nodup)
    (fresh : target ∉ nodes) :
    Path (update next (prev last) target) (update prev target (prev last)) first nodes target := by
  induction nodes generalizing first with
  | nil =>
    rw [path.2]
    exact ⟨update_self _ _ _, update_self _ _ _⟩
  | cons head rest ih =>
    obtain ⟨⟨step, back⟩, path⟩ := path
    obtain ⟨early, distinct⟩ := List.nodup_cons.mp distinct
    have other : first ≠ prev last := fun same => early (same ▸ path_last_mem path)
    have apart : head ≠ target := fun same => fresh (by simp [same])
    refine ⟨⟨?_, ?_⟩, ih path distinct (fun member => fresh (List.mem_cons_of_mem _ member))⟩
    · rw [update_of_ne other, step]
    · rw [update_of_ne apart, back]

/-- Joining a node's neighbours takes it out. -/
theorem Ring.remove {front back : List ι} (ring : Ring next prev sentinel (front ++ node :: back)) :
    Ring (update next (prev node) (next node)) (update prev (next node) (prev node)) sentinel (front ++ back) := by
  obtain ⟨before, after⟩ := path_append.mp ring.path
  have distinct := ring.distinct
  simp only [List.nodup_cons, List.nodup_append, List.mem_append, List.mem_cons, not_or] at distinct
  obtain ⟨⟨noFront, _, noBack⟩, frontDistinct, ⟨_, backDistinct⟩, apart⟩ := distinct
  have head : (sentinel :: front).Nodup := List.nodup_cons.mpr ⟨noFront, frontDistinct⟩
  constructor
  · cases back with
    | nil =>
      rw [after.1, List.append_nil]
      exact path_end before head noFront
    | cons second rest =>
      obtain ⟨⟨step, _⟩, after⟩ := after
      rw [step]
      refine path_append.mpr ⟨path_end before head ?_, path_frame after ?_ ?_⟩
      · intro member
        exact apart second member second (by simp) rfl
      · intro other member
        refine update_of_ne ?_ _ _
        rintro rfl
        rcases List.mem_cons.mp (path_last_mem before) with same | early
        · exact noBack (same ▸ member)
        · exact apart _ early _ (.inr member) rfl
      · intro other member
        refine update_of_ne ?_ _ _
        rintro rfl
        rcases List.mem_append.mp member with late | same
        · exact (List.nodup_cons.mp backDistinct).1 late
        · exact noBack (List.mem_singleton.mp same ▸ List.mem_cons_self)
  · refine List.nodup_cons.mpr ⟨by simp [noFront, noBack], List.nodup_append.mpr ⟨frontDistinct, backDistinct, ?_⟩⟩
    intro early member late later
    exact apart early member late (.inr later)

/-- A fresh node linked between the sentinel and the first node. -/
theorem Ring.push (ring : Ring next prev sentinel nodes) (other : node ≠ sentinel) (fresh : node ∉ nodes) :
    Ring (update (update next node (next sentinel)) sentinel node)
      (update (update prev (next sentinel) node) node sentinel) sentinel (node :: nodes) := by
  have first := ring.first
  obtain ⟨path, distinct⟩ := ring
  obtain ⟨absent, _⟩ := List.nodup_cons.mp distinct
  refine ⟨⟨⟨update_self _ _ _, update_self _ _ _⟩, ?_⟩, by
    simpa [other.symm, fresh] using List.nodup_cons.mp distinct⟩
  cases nodes with
  | nil =>
    rw [first]
    constructor
    · rw [update_of_ne other, update_self]
      rfl
    · rw [update_of_ne other.symm]
      exact update_self _ _ _
  | cons head rest =>
    have headFirst : next sentinel = head := first
    obtain ⟨_, path⟩ := path
    have differ : head ≠ node := fun same => fresh (by simp [same])
    rw [headFirst]
    refine ⟨⟨?_, ?_⟩, path_frame path ?_ ?_⟩
    · rw [update_of_ne other, update_self]
    · rw [update_of_ne differ, update_self]
    · intro later member
      have apart : later ≠ sentinel := fun same => absent (same ▸ member)
      have differ : later ≠ node := fun same => fresh (same ▸ member)
      rw [update_of_ne apart, update_of_ne differ]
    · intro later member
      have apart : later ≠ head := by
        rintro rfl
        rcases List.mem_append.mp member with late | same
        · exact (List.nodup_cons.mp (List.nodup_cons.mp distinct).2).1 late
        · exact absent (List.mem_singleton.mp same ▸ List.mem_cons_self)
      have differ : later ≠ node := by
        rintro rfl
        rcases List.mem_append.mp member with late | same
        · exact fresh (List.mem_cons_of_mem _ late)
        · exact other (List.mem_singleton.mp same)
      rw [update_of_ne differ, update_of_ne apart]

end Updates

end LunaOS.CircularList
