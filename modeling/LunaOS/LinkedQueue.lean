import Mathlib.Logic.Function.Basic
import Mathlib.Data.List.Nodup

/-! Doubly linked lists over any kind of pointer. A list is described by the
nodes it visits in order; removing a node and appending one are stated on the
two link functions, so that a program's own stores can be compared with them. -/
namespace LunaOS.LinkedQueue
open Function

variable {ι : Type} {prev next : ι → Option ι}

/-- Both links of every node agree with its neighbours, `before` and `after` being
the links of the outermost nodes. -/
def Linked (prev next : ι → Option ι) : Option ι → List ι → Option ι → Prop
  | _, [], _ => True
  | before, node :: rest, after =>
    prev node = before ∧ next node = rest.head?.or after ∧ Linked prev next (some node) rest after

theorem last_cons (node : ι) (rest : List ι) (before : Option ι) :
    (node :: rest).getLast?.or before = rest.getLast?.or (some node) := by
  cases rest with
  | nil => rfl
  | cons first rest => simp [List.getLast?_cons]

theorem linked_append {front back : List ι} : Linked prev next before (front ++ back) after ↔
    Linked prev next before front (back.head?.or after) ∧ Linked prev next (front.getLast?.or before) back after := by
  induction front generalizing before with
  | nil => simp [Linked]
  | cons node rest ih =>
    simp only [List.cons_append, Linked, ih, List.head?_append, Option.or_assoc, last_cons, and_assoc]

theorem linked_frame {prev' next' : ι → Option ι} {nodes : List ι}
    (same : ∀ node ∈ nodes, prev' node = prev node ∧ next' node = next node)
    (linked : Linked prev next before nodes after) : Linked prev' next' before nodes after := by
  induction nodes generalizing before with
  | nil => trivial
  | cons node rest ih =>
    obtain ⟨backward, forward, tail⟩ := linked
    obtain ⟨keptPrev, keptNext⟩ := same node (by simp)
    refine ⟨keptPrev.trans backward, keptNext.trans forward, ih ?_ tail⟩
    intro other member
    exact same other (by simp [member])

/-- Following `next` from the first node visits the nodes. -/
theorem linked_next {front back : List ι} (linked : Linked prev next before (front ++ node :: back) after) :
    prev node = front.getLast?.or before ∧ next node = back.head?.or after :=
  ⟨(linked_append.mp linked).2.1, (linked_append.mp linked).2.2.1⟩

section Updates
variable [DecidableEq ι]

/-- A store through a pointer that may be null. -/
def assign (links : ι → Option ι) (target value : Option ι) : ι → Option ι :=
  match target with
  | none => links
  | some node => Function.update links node value

theorem assign_other {node : ι} (other : target ≠ some node) : assign links target value node = links node := by
  cases target with
  | none => rfl
  | some found => exact update_of_ne (fun same => other (by rw [same])) _ _

/-- The last node's `next` may be changed to whatever follows now. -/
theorem linked_last {nodes : List ι} (distinct : nodes.Nodup) (linked : Linked prev next before nodes after) :
    Linked prev (assign next nodes.getLast? follower) before nodes follower := by
  rcases List.eq_nil_or_concat nodes with rfl | ⟨front, node, rfl⟩
  · trivial
  · rw [List.concat_eq_append] at linked distinct ⊢
    obtain ⟨early, backward, _⟩ := linked_append.mp linked
    have last : (front ++ [node]).getLast? = some node := by simp
    rw [last]
    refine linked_append.mpr ⟨linked_frame ?_ early, backward, ?_, trivial⟩
    · intro other member
      have differ : some node ≠ some other := by
        rintro ⟨⟩
        exact (List.disjoint_of_nodup_append distinct) member (by simp)
      exact ⟨rfl, assign_other differ⟩
    · simp [assign]

/-- The first node's `prev` may be changed to whatever precedes now. -/
theorem linked_first {nodes : List ι} (distinct : nodes.Nodup) (linked : Linked prev next before nodes after) :
    Linked (assign prev nodes.head? leader) next leader nodes after := by
  cases nodes with
  | nil => trivial
  | cons node rest =>
    obtain ⟨_, forward, tail⟩ := linked
    refine ⟨by simp [assign], forward, linked_frame ?_ tail⟩
    intro other member
    have differ : some node ≠ some other := by
      rintro ⟨⟩
      exact (List.nodup_cons.mp distinct).1 member
    exact ⟨assign_other differ, rfl⟩

/-- Joining a node's neighbours takes it out of the list. -/
theorem linked_remove {front back : List ι} {node : ι} (distinct : (front ++ node :: back).Nodup)
    (linked : Linked prev next none (front ++ node :: back) none) :
    Linked (assign prev (next node) (prev node)) (assign next (prev node) (next node)) none (front ++ back) none := by
  obtain ⟨backward, forward⟩ := linked_next linked
  obtain ⟨early, _, _, late⟩ := linked_append.mp linked
  have parts := List.nodup_append.mp distinct
  obtain ⟨_, backDistinct⟩ := List.nodup_cons.mp parts.2.1
  have apart : ∀ early ∈ front, ∀ late ∈ back, early ≠ late :=
    fun early member late after => parts.2.2 early member late (by simp [after])
  rw [Option.or_none] at backward forward
  rw [backward, forward]
  refine linked_append.mpr ⟨linked_frame ?_ (linked_last parts.1 early),
    linked_frame ?_ (linked_first backDistinct late)⟩
  · intro other member
    refine ⟨assign_other ?_, by rw [Option.or_none]⟩
    intro same
    exact apart other member other (List.mem_of_mem_head? (by simp [same])) rfl
  · intro other member
    refine ⟨by rw [Option.or_none], assign_other ?_⟩
    intro same
    exact apart other (List.mem_of_getLast? same) other member rfl

/-- Linking a fresh node behind the last one. -/
theorem linked_push {nodes : List ι} {node : ι} (distinct : nodes.Nodup) (fresh : node ∉ nodes)
    (linked : Linked prev next none nodes none) : Linked (update prev node nodes.getLast?)
      (assign (update next node none) nodes.getLast? (some node)) none (nodes ++ [node]) none := by
  have other : nodes.getLast? ≠ some node := fun last => fresh (List.mem_of_getLast? last)
  refine linked_append.mpr ⟨?_, by simp, ?_, trivial⟩
  · have kept : Linked (update prev node nodes.getLast?) (update next node none)
        none nodes none := by
      refine linked_frame ?_ linked
      intro member held
      have differ : member ≠ node := fun same => fresh (same ▸ held)
      exact ⟨update_of_ne differ _ _, update_of_ne differ _ _⟩
    simpa using linked_last distinct kept
  · rw [assign_other other]
    simp

end Updates

end LunaOS.LinkedQueue
