import Mathlib.Algebra.Group.Defs
import Mathlib.Algebra.BigOperators.Group.List.Defs
import Mathlib.Data.List.Chain

/-! Lists of pieces that are in use or not, with neighbours merged when neither is.
The rules are for allocators that cut an unused piece and merge after a release. -/
namespace LunaOS.Coalescing


section Rules
variable {α : Type} {used : α → Bool} {pieces pre post rest : List α} {piece front second : α}

/-- No two unused pieces stand side by side. -/
def Settled (used : α → Bool) (pieces : List α) : Prop :=
  pieces.IsChain fun first second => used first = true ∨ used second = true

/-- A settled list without a used piece is a single piece. -/
theorem settled_single (settled : Settled used pieces) (unused : ∀ piece ∈ pieces, used piece = false)
    (nonempty : pieces ≠ []) : ∃ piece, pieces = [piece] := by
  match pieces with
  | [] => exact absurd rfl nonempty
  | [piece] => exact ⟨piece, rfl⟩
  | first :: second :: rest =>
    have beside := (List.isChain_cons_cons.mp settled).1
    rw [unused first (by simp), unused second (by simp)] at beside
    cases beside <;> contradiction

/-- An unused piece may be cut when the first part is then in use. -/
theorem settled_carve (settled : Settled used (pre ++ [piece] ++ post)) (idle : used piece = false)
    (busy : used front = true) (carved : Settled used (front :: rest)) :
    Settled used (pre ++ front :: rest ++ post) := by
  obtain ⟨before, back, toPost⟩ := List.isChain_append.mp settled
  refine List.isChain_append.mpr ⟨List.isChain_append.mpr ⟨(List.isChain_append.mp before).1, carved, ?_⟩, back, ?_⟩
  · intro last _ first here
    cases Option.some.inj here
    exact .inr busy
  · intro last _ first there
    have beside := toPost piece (by simp) first there
    rw [idle] at beside
    exact .inr (beside.resolve_left Bool.false_ne_true)

/-- A piece goes in front of a list whose head was merged from `second`. -/
theorem settled_cons (settled : Settled used (front :: rest)) (same : used front = used second)
    (apart : ¬ (used piece = false ∧ used second = false)) : Settled used (piece :: front :: rest) := by
  refine List.isChain_cons_cons.mpr ⟨?_, settled⟩
  rw [same]
  cases here : used piece with
  | true => exact .inl rfl
  | false =>
    cases there : used second with
    | true => exact .inr rfl
    | false => exact absurd ⟨here, there⟩ apart

end Rules

/-! ## Merging -/

/-- One pass from the first piece on, which stays at a piece that took in the next. -/
def merge (used : α → Bool) (absorb : α → α → α) : List α → List α
  | [] => []
  | [piece] => [piece]
  | first :: second :: rest =>
    if used first = false ∧ used second = false then merge used absorb (absorb first second :: rest)
    else first :: merge used absorb (second :: rest)
termination_by pieces => pieces.length

section Merge
variable {α : Type} {used : α → Bool} {absorb : α → α → α} {first second : α} {rest : List α}

theorem merge_join (idle : used first = false ∧ used second = false) :
    merge used absorb (first :: second :: rest) = merge used absorb (absorb first second :: rest) := by
  rw [merge, if_pos idle]

theorem merge_keep (apart : ¬ (used first = false ∧ used second = false)) :
    merge used absorb (first :: second :: rest) = first :: merge used absorb (second :: rest) := by
  rw [merge, if_neg apart]

/-- What pieces weigh together is kept. -/
theorem merge_weight [AddMonoid M] (weight : α → M)
    (adds : ∀ first second, weight (absorb first second) = weight first + weight second) (pieces : List α) :
    ((merge used absorb pieces).map weight).sum = (pieces.map weight).sum := by
  fun_induction merge used absorb pieces with
  | case1 => rfl
  | case2 piece => rfl
  | case3 first second rest idle ih =>
    rw [ih, List.map_cons, List.map_cons, List.map_cons, List.sum_cons, List.sum_cons, List.sum_cons, adds, add_assoc]
  | case4 first second rest apart ih => rw [List.map_cons, List.map_cons, List.sum_cons, List.sum_cons, ih]

variable (stays : ∀ first second, used (absorb first second) = used first)
include stays

theorem merge_head (first : α) (rest : List α) :
    ∃ front tail, merge used absorb (first :: rest) = front :: tail ∧ used front = used first := by
  induction rest generalizing first with
  | nil => exact ⟨first, [], by rw [merge], rfl⟩
  | cons second rest ih =>
    by_cases idle : used first = false ∧ used second = false
    · obtain ⟨front, tail, shape, same⟩ := ih (absorb first second)
      exact ⟨front, tail, (merge_join idle).trans shape, same.trans (stays first second)⟩
    · exact ⟨first, _, merge_keep idle, rfl⟩

theorem merge_settled (pieces : List α) : Settled used (merge used absorb pieces) := by
  fun_induction merge used absorb pieces with
  | case1 => exact .nil
  | case2 piece => exact .singleton piece
  | case3 first second rest idle ih => exact ih
  | case4 first second rest apart ih =>
    obtain ⟨front, tail, shape, same⟩ := merge_head stays second rest
    rw [shape] at ih ⊢
    exact settled_cons ih same apart

/-- Used pieces are neither merged nor moved. -/
theorem merge_filter (pieces : List α) : (merge used absorb pieces).filter used = pieces.filter used := by
  fun_induction merge used absorb pieces with
  | case1 => rfl
  | case2 piece => rfl
  | case3 first second rest idle ih =>
    have absorbed : ¬ used (absorb first second) = true := by
      rw [stays, idle.1]
      exact Bool.false_ne_true
    rw [ih, List.filter_cons_of_neg absorbed, List.filter_cons_of_neg (by simp [idle.1]),
      List.filter_cons_of_neg (by simp [idle.2])]
  | case4 first second rest apart ih => rw [List.filter_cons, ih, ← List.filter_cons]

end Merge

end LunaOS.Coalescing
