import Mathlib.Algebra.Group.Nat.Defs
import Mathlib.Logic.Basic

/-! Loops of a program whose termination is part of what is proved. A loop
body either leaves with a result or asks for another turn; running out of
turns is `none`, never a default result. -/
namespace LunaOS.BoundedLoop

inductive Turn (σ α : Type) where
  | again (state : σ)
  | leave (result : α)

def iterate (body : σ → Turn σ α) : Nat → σ → Option α
  | 0, _ => none
  | fuel + 1, state =>
    match body state with
    | .again next => iterate body fuel next
    | .leave result => some result

/-- No loop over distinct 64-bit values takes more turns than there are values. -/
def maxTurns : Nat := 2 ^ 64

theorem iterate_leave {body : σ → Turn σ α} (left : body state = .leave result)
    (fuel : 0 < turns) : iterate body turns state = some result := by
  obtain ⟨rest, rfl⟩ : ∃ rest, turns = rest + 1 := ⟨turns - 1, by omega⟩
  simp only [iterate, left]

theorem iterate_again {body : σ → Turn σ α} (asked : body state = .again next) :
    iterate body (turns + 1) state = iterate body turns next := by
  simp only [iterate, asked]

/-- A loop that returned did so from a state satisfying every invariant its
turns keep. -/
theorem iterate_invariant {body : σ → Turn σ α} (holds : σ → Prop)
    (kept : ∀ state next, holds state → body state = .again next → holds next)
    (start : holds state) (returned : iterate body turns state = some result) :
    ∃ last, holds last ∧ body last = .leave result := by
  induction turns generalizing state with
  | zero => cases returned
  | succ turns ih =>
    cases asked : body state with
    | again next =>
      rw [iterate_again asked] at returned
      exact ih (kept state next start asked) returned
    | leave found =>
      rw [iterate_leave asked (Nat.succ_pos turns)] at returned
      cases returned
      exact ⟨state, start, asked⟩

/-- A loop whose every turn asks for another never returns. -/
theorem iterate_never {body : σ → Turn σ α} (holds : σ → Prop) (start : holds state)
    (goes : ∀ state, holds state → ∃ next, body state = .again next ∧ holds next) (turns : Nat) :
    iterate body turns state = none := by
  induction turns generalizing state with
  | zero => rfl
  | succ turns ih =>
    obtain ⟨next, asked, kept⟩ := goes state start
    rw [iterate_again asked]
    exact ih kept

/-- The states a loop's turns begin in. -/
def visits (body : σ → Turn σ α) : Nat → σ → List σ
  | 0, _ => []
  | fuel + 1, state =>
    state :: match body state with
      | .again next => visits body fuel next
      | .leave _ => []

theorem visits_leave {body : σ → Turn σ α} (left : body state = .leave result) (fuel : 0 < turns) :
    visits body turns state = [state] := by
  obtain ⟨rest, rfl⟩ : ∃ rest, turns = rest + 1 := ⟨turns - 1, by omega⟩
  simp only [visits, left]

theorem visits_invariant {body : σ → Turn σ α} (holds : σ → Prop)
    (kept : ∀ state next, holds state → body state = .again next → holds next)
    (start : holds state) : ∀ visited ∈ visits body turns state, holds visited := by
  induction turns generalizing state with
  | zero => simp [visits]
  | succ turns ih =>
    intro visited member
    rcases List.mem_cons.mp member with rfl | later
    · exact start
    · cases asked : body state with
      | again next =>
        simp only [asked] at later
        exact ih (kept state next start asked) visited later
      | leave result =>
        simp only [asked] at later
        cases later

/-- Turns that are known to ask for another, one after the other. -/
theorem iterate_along {body : σ → Turn σ α} (states : Nat → σ)
    (goes : ∀ i < count, body (states i) = .again (states (i + 1))) (turns : Nat) :
    iterate body (turns + count) (states 0) = iterate body turns (states count) ∧
      visits body (turns + count) (states 0) = (List.range count).map states ++ visits body turns (states count) := by
  induction count generalizing turns with
  | zero => exact ⟨rfl, rfl⟩
  | succ count ih =>
    have last := goes count (Nat.lt_succ_self count)
    obtain ⟨ran, visited⟩ := ih (fun i early => goes i (Nat.lt_succ_of_lt early)) (turns + 1)
    rw [Nat.add_right_comm turns 1 count] at ran visited
    constructor
    · exact ran.trans (iterate_again last)
    · refine visited.trans ?_
      simp only [visits, last, List.range_succ, List.map_append, List.map_singleton, List.append_assoc,
        List.singleton_append]

/-- A loop whose turns are all known. -/
theorem iterate_ends {body : σ → Turn σ α} (states : Nat → σ)
    (goes : ∀ i < count, body (states i) = .again (states (i + 1))) (left : body (states count) = .leave result)
    (fuel : count < turns) : iterate body turns (states 0) = some result ∧
      visits body turns (states 0) = (List.range count).map states ++ [states count] := by
  obtain ⟨rest, rfl⟩ : ∃ rest, turns = rest + 1 + count := ⟨turns - count - 1, by omega⟩
  obtain ⟨ran, visited⟩ := iterate_along states goes (rest + 1)
  rw [ran, visited, iterate_leave left (Nat.succ_pos rest), visits_leave left (Nat.succ_pos rest)]
  exact ⟨rfl, rfl⟩

/-- What every visited turn keeps, the loop keeps. -/
theorem iterate_keeps {body : σ → Turn σ α} (observe : σ → β) (final : α → β)
    (again : ∀ visited ∈ visits body turns state, ∀ next, body visited = .again next → observe next = observe visited)
    (leave : ∀ visited ∈ visits body turns state, ∀ result, body visited = .leave result →
      final result = observe visited)
    (returned : iterate body turns state = some result) : final result = observe state := by
  induction turns generalizing state with
  | zero => cases returned
  | succ turns ih =>
    have here : state ∈ visits body (turns + 1) state := List.mem_cons_self
    cases asked : body state with
    | again next =>
      have later : ∀ visited ∈ visits body turns next, visited ∈ visits body (turns + 1) state := by
        intro visited member
        refine List.mem_cons_of_mem _ ?_
        simp only [asked]
        exact member
      rw [iterate_again asked] at returned
      rw [← again state here next asked]
      exact ih (fun visited member => again visited (later visited member))
        (fun visited member => leave visited (later visited member)) returned
    | leave last =>
      rw [iterate_leave asked (Nat.succ_pos turns)] at returned
      cases returned
      exact leave state here _ asked

/-- A loop that returned left in the last turn and in no other. -/
theorem visits_last {body : σ → Turn σ α} (returned : iterate body turns state = some result) :
    ∃ front last, visits body turns state = front ++ [last] ∧ body last = .leave result ∧
      ∀ visited ∈ front, ∃ next, body visited = .again next := by
  induction turns generalizing state with
  | zero => cases returned
  | succ turns ih =>
    cases asked : body state with
    | again next =>
      rw [iterate_again asked] at returned
      obtain ⟨front, last, shape, left, early⟩ := ih returned
      refine ⟨state :: front, last, ?_, left, ?_⟩
      · simp only [visits, asked, shape, List.cons_append]
      · exact List.forall_mem_cons.mpr ⟨⟨next, asked⟩, early⟩
    | leave last =>
      rw [iterate_leave asked (Nat.succ_pos turns)] at returned
      cases returned
      exact ⟨[], state, by simp only [visits, asked, List.nil_append], asked, by simp⟩

end LunaOS.BoundedLoop
