import LunaOS.BoundedLoop
import Mathlib.Data.List.Nodup
import Mathlib.Data.List.Range
import Mathlib.Logic.Function.Iterate

/-! Loops over a counter of fixed width, `for (i = start; i < limit; i++)`, and what
such a loop collects in front of a list. -/
namespace LunaOS.CountedLoop
open BoundedLoop
open BitVec hiding or_assoc

def forTurn (limit : BitVec w) (body : BitVec w → σ → Option σ) : BitVec w × σ → Turn (BitVec w × σ) (Option σ)
  | (i, state) =>
    if i < limit then
      match body i state with
      | none => .leave none
      | some next => .again (i + 1, next)
    else .leave (some state)

/-- A counter below its limit does not wrap around, so it takes fewer turns than it has
values. -/
def forLoop (start limit : BitVec w) (body : BitVec w → σ → Option σ) (state : σ) : Option σ :=
  (iterate (forTurn limit body) (2 ^ w) (start, state)).join

/-- The values of the counter, in order. -/
def counted (start limit : BitVec w) : List (BitVec w) :=
  (List.range' start.toNat (limit.toNat - start.toNat)).map (BitVec.ofNat w)

theorem mem_counted {start limit i : BitVec w} : i ∈ counted start limit ↔ start ≤ i ∧ i < limit := by
  have bound := i.isLt
  simp only [counted, List.mem_map, List.mem_range'_1, le_def, lt_def]
  constructor
  · rintro ⟨k, inside, rfl⟩
    rw [toNat_ofNat, Nat.mod_eq_of_lt (by omega)]
    omega
  · intro inside
    exact ⟨i.toNat, by omega, by simp⟩

theorem mem_counted_zero {limit i : BitVec w} : i ∈ counted 0 limit ↔ i < limit := by
  have least : (0 : BitVec w) ≤ i := by
    exact Nat.le_trans (Nat.le_of_eq (toNat_zero)) (Nat.zero_le _)
  rw [mem_counted, and_iff_right least]

theorem counted_nodup (start limit : BitVec w) : (counted start limit).Nodup := by
  refine List.Nodup.map_on ?_ List.nodup_range'
  intro first inside second inside' same
  rw [List.mem_range'_1] at inside inside'
  have values := congrArg BitVec.toNat same
  rwa [toNat_ofNat, toNat_ofNat, Nat.mod_eq_of_lt (by omega), Nat.mod_eq_of_lt (by omega)] at values

theorem next_toNat {i limit : BitVec w} (below : i < limit) : (i + 1).toNat = i.toNat + 1 := by
  rw [lt_def] at below
  change (i + 1#w).toNat = _
  rw [toNat_add, toNat_ofNat, Nat.add_mod_mod, Nat.mod_eq_of_lt (by omega)]

theorem counted_cons {start limit : BitVec w} (below : start < limit) :
    counted start limit = start :: counted (start + 1) limit := by
  rw [counted, counted, next_toNat below]
  rw [lt_def] at below
  rw [show limit.toNat - start.toNat = limit.toNat - (start.toNat + 1) + 1 by omega,
    List.range'_succ, List.map_cons, ofNat_toNat, setWidth_eq]

theorem counted_nil {start limit : BitVec w} (past : ¬ start < limit) : counted start limit = [] := by
  rw [lt_def] at past
  rw [counted, Nat.sub_eq_zero_of_le (by omega)]
  rfl

/-- A loop that puts what it finds in front of a list. -/
theorem forLoop_collects {start limit : BitVec w} {body : BitVec w → List α → Option (List α)}
    {found : BitVec w → List α}
    (adds : ∀ i, start ≤ i → i < limit → ∀ state, body i state = some (found i ++ state)) (state : List α) :
    forLoop start limit body state = some ((counted start limit).reverse.flatMap found ++ state) := by
  suffices loop : ∀ turns, limit.toNat - start.toNat < turns → iterate (forTurn limit body) turns (start, state) =
        some (some ((counted start limit).reverse.flatMap found ++ state)) by
    rw [forLoop, loop _ (by omega), Option.join_some]
  intro turns fuel
  induction turns generalizing start state with
  | zero => omega
  | succ turns ih =>
    by_cases below : start < limit
    · have asked : forTurn limit body (start, state) = .again (start + 1, found start ++ state) := by
        simp only [forTurn, if_pos below, adds start (BitVec.le_refl start) below]
      have rest := ih (fun i later => adds i (by rw [le_def, next_toNat below] at later; rw [le_def]; omega))
        (found start ++ state) (by rw [next_toNat below]; rw [lt_def] at below; omega)
      rw [iterate_again asked, rest, counted_cons below, List.reverse_cons, List.flatMap_append, List.flatMap_singleton,
        List.append_assoc]
    · have left : forTurn limit body (start, state) = .leave (some state) := if_neg below
      rw [iterate_leave left (Nat.succ_pos turns), counted_nil below]
      rfl

/-- What is found is found once, when it tells which turn found it. -/
theorem flatMap_nodup {turns : List α} {found : α → List β} (turn : β → α) (distinct : turns.Nodup)
    (each : ∀ i ∈ turns, (found i).Nodup) (tells : ∀ i ∈ turns, ∀ item ∈ found i, turn item = i) :
    (turns.flatMap found).Nodup := by
  refine List.nodup_flatMap.mpr ⟨each, distinct.imp_of_mem fun {first second} early late differ item one other => ?_⟩
  exact differ ((tells first early item one).symm.trans (tells second late item other))

/-- What is logged after some turns of a loop, if each adds to the log. -/
theorem mem_iterate {σ : Type} (log : σ → List α) {turn : σ → σ} {adds : σ → α → Prop}
    (each : ∀ state found, found ∈ log (turn state) ↔ found ∈ log state ∨ adds state found) (n : Nat) (state : σ)
    (found : α) : found ∈ log (turn^[n] state) ↔ found ∈ log state ∨ ∃ k < n, adds (turn^[k] state) found := by
  induction n with
  | zero => simp
  | succ n ih =>
    rw [Function.iterate_succ_apply', each, ih, or_assoc]
    simp only [Nat.lt_succ_iff_lt_or_eq, or_and_right, exists_or, exists_eq_left]

end LunaOS.CountedLoop
