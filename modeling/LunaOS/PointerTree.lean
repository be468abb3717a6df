import Mathlib.Data.List.Induction
import Mathlib.Data.List.Infix

/-! Trees of nodes that point at each other through keyed slots. A node is known
by the path that leads to it; a tree of bounded depth is unshared when no two
paths lead to one node. Grafting a node into an empty slot and pruning a slot are
described by what they do to every path. -/
namespace LunaOS.PointerTree

variable {ν κ : Type} {child after : ν → κ → Option ν} {root : ν}

def descend (child : ν → κ → Option ν) (root : ν) (path : List κ) : Option ν :=
  path.foldlM child root

@[simp] theorem descend_nil : descend child root [] = some root := rfl

theorem descend_append (front back : List κ) : descend child root (front ++ back) =
    (descend child root front).bind fun node => descend child node back := by
  simp only [descend, List.foldlM_append]
  rfl

theorem descend_snoc (path : List κ) (key : κ) : descend child root (path ++ [key]) =
    (descend child root path).bind fun node => child node key := by
  rw [descend_append]
  congr 1
  funext node
  simp [descend]

/-- A path that leads somewhere leads on from each of its beginnings. -/
theorem descend_along (whole : descend child root path ≠ none) (along : probe <+: path) :
    descend child root probe ≠ none := by
  obtain ⟨rest, rfl⟩ := along
  intro lost
  rw [descend_append, lost] at whole
  exact whole rfl

/-- Below a root without children there is nothing. -/
theorem descend_bare (bare : ∀ key, child root key = none) (found : descend child root path = some node) :
    path = [] ∧ node = root := by
  cases path with
  | nil => exact ⟨rfl, (Option.some.inj found).symm⟩
  | cons key rest => simp [descend, bare] at found

/-- A path that leads nowhere stops at an empty slot. -/
theorem descend_stuck {path : List κ} (lost : descend child root path = none) :
    ∃ probe slot node, probe ++ [slot] <+: path ∧ descend child root probe = some node ∧ child node slot = none := by
  induction path using List.reverseRecOn with
  | nil => cases lost
  | append_singleton path key ih =>
    cases reached : descend child root path with
    | none =>
      obtain ⟨probe, slot, node, along, found, empty⟩ := ih reached
      exact ⟨probe, slot, node, along.trans (List.prefix_append _ _), found, empty⟩
    | some node =>
      rw [descend_snoc, reached] at lost
      exact ⟨path, key, node, List.prefix_rfl, reached, lost⟩

/-- Nodes are told apart by their paths, down to `depth`. -/
def Unshared (child : ν → κ → Option ν) (root : ν) (depth : Nat) : Prop :=
  ∀ first second node, first.length ≤ depth → second.length ≤ depth →
    descend child root first = some node → descend child root second = some node → first = second

def Reached (child : ν → κ → Option ν) (root : ν) (depth : Nat) (node : ν) : Prop :=
  ∃ path, path.length ≤ depth ∧ descend child root path = some node

/-- Slots of nodes above `depth` decide all paths. -/
theorem descend_congr {depth : Nat} (same : ∀ path node, path.length < depth → descend child root path = some node →
      ∀ key, after node key = child node key) (path : List κ) (short : path.length ≤ depth) :
    descend after root path = descend child root path := by
  induction path using List.reverseRecOn with
  | nil => rfl
  | append_singleton path key ih =>
    simp only [List.length_append, List.length_singleton] at short
    rw [descend_snoc, descend_snoc, ih (by omega)]
    cases found : descend child root path with
    | none => rfl
    | some node => exact same path node (by omega) found key

theorem unshared_congr {depth : Nat} (same : ∀ path node, path.length < depth → descend child root path = some node →
      ∀ key, after node key = child node key) (unshared : Unshared child root depth) : Unshared after root depth := by
  intro first second node firstShort secondShort here there
  rw [descend_congr same first firstShort] at here
  rw [descend_congr same second secondShort] at there
  exact unshared first second node firstShort secondShort here there

section Adopt
variable {old new : ν} {keep : κ → Bool} {depth : Nat}

/-- A new root takes over some of the children of an old one. -/
structure Adopted (child after : ν → κ → Option ν) (old new : ν) (keep : κ → Bool) : Prop where
  taken : ∀ key, after new key = if keep key then child old key else none
  same : ∀ other key, other ≠ new → after other key = child other key

theorem descend_adopt (fresh : ¬ Reached child old depth new) (adopted : Adopted child after old new keep)
    (first : κ) (rest : List κ) (short : (first :: rest).length ≤ depth) :
    descend after new (first :: rest) = if keep first then descend child old (first :: rest) else none := by
  have step : ∀ (edges : ν → κ → Option ν) root, descend edges root (first :: rest) =
      (edges root first).bind fun node => descend edges node rest := fun _ _ => rfl
  rw [step, step, adopted.taken]
  cases keep first with
  | false => rfl
  | true =>
    simp only [if_true]
    cases found : child old first with
    | none => rfl
    | some node =>
      have inside : ∀ path other, path.length < rest.length → descend child node path = some other →
          ∀ key, after other key = child other key := by
        intro path other inner reached key
        refine adopted.same other key ?_
        rintro rfl
        refine fresh ⟨first :: path, by simp only [List.length_cons] at short ⊢; omega, ?_⟩
        show (child old first).bind (fun node => descend child node path) = _
        rw [found]
        exact reached
      exact descend_congr inside rest (Nat.le_refl _)

theorem unshared_adopt (unshared : Unshared child old depth) (fresh : ¬ Reached child old depth new)
    (adopted : Adopted child after old new keep) : Unshared after new depth := by
  have view : ∀ path node, path.length ≤ depth → descend after new path = some node →
      path = [] ∧ node = new ∨ path ≠ [] ∧ descend child old path = some node := by
    intro path node short reached
    cases path with
    | nil => exact .inl ⟨rfl, (Option.some.inj reached).symm⟩
    | cons first rest =>
      rw [descend_adopt fresh adopted first rest short] at reached
      split at reached
      · exact .inr ⟨by simp, reached⟩
      · cases reached
  intro first second node firstShort secondShort here there
  rcases view first node firstShort here with ⟨rfl, rfl⟩ | ⟨_, here⟩ <;>
    rcases view second node secondShort there with ⟨rfl, other⟩ | ⟨_, there⟩
  · rfl
  · exact absurd ⟨second, secondShort, there⟩ fresh
  · exact absurd ⟨first, firstShort, other ▸ here⟩ fresh
  · exact unshared first second node firstShort secondShort here there

end Adopt

section Graft
variable [DecidableEq κ] {depth : Nat} {path : List κ} {table node : ν} {key : κ}

/-- A new node, itself without children, hangs in one slot. -/
structure Grafted (child after : ν → κ → Option ν) (table : ν) (key : κ) (node : ν) : Prop where
  here : after table key = some node
  bare : ∀ slot, after node slot = none
  same : ∀ other slot, other ≠ node → (other ≠ table ∨ slot ≠ key) → after other slot = child other slot

section New
variable (unshared : Unshared child root depth) (found : descend child root path = some table)
  (inner : path.length < depth) (empty : child table key = none) (fresh : ¬ Reached child root depth node)
  (grafted : Grafted child after table key node)
include unshared found inner empty fresh grafted

/-- Grafting adds exactly one path. -/
theorem descend_graft (probe : List κ) (short : probe.length ≤ depth) : descend after root probe =
      if probe = path ++ [key] then some node else descend child root probe := by
  have vacant : descend child root (path ++ [key]) = none := by
    rw [descend_snoc, found]
    exact empty
  induction probe using List.reverseRecOn with
  | nil => simp
  | append_singleton probe slot ih =>
    simp only [List.length_append, List.length_singleton] at short
    rw [descend_snoc, ih (by omega)]
    by_cases below : probe = path ++ [key]
    · have longer : probe ++ [slot] ≠ path ++ [key] := by
        intro equal
        have lengths := congrArg List.length (below ▸ equal)
        simp at lengths
      rw [if_pos below, if_neg longer, descend_snoc, below, vacant]
      exact grafted.bare slot
    · rw [if_neg below, descend_snoc]
      cases reached : descend child root probe with
      | none =>
        have away : probe ++ [slot] ≠ path ++ [key] := by
          intro equal
          have same := List.append_inj_left' equal rfl
          rw [same, found] at reached
          cases reached
        rw [if_neg away]
        rfl
      | some other =>
        have foreign : other ≠ node := fun equal => fresh ⟨probe, by omega, equal ▸ reached⟩
        by_cases target : probe ++ [slot] = path ++ [key]
        · obtain ⟨samePath, sameKey⟩ := List.append_inj' target rfl
          cases sameKey
          rw [samePath, found] at reached
          cases reached
          rw [if_pos target]
          exact grafted.here
        · rw [if_neg target]
          refine grafted.same other slot foreign ?_
          by_contra both
          rw [not_or, not_not, not_not] at both
          obtain ⟨rfl, rfl⟩ := both
          exact target (by rw [unshared probe path other (by omega) (by omega) reached found])

theorem unshared_graft : Unshared after root depth := by
  have view := descend_graft unshared found inner empty fresh grafted
  intro first second other firstShort secondShort here there
  rw [view first firstShort] at here
  rw [view second secondShort] at there
  split at here <;> split at there
  · rename_i left right
    rw [left, right]
  · cases here
    exact absurd ⟨second, secondShort, there⟩ fresh
  · cases there
    exact absurd ⟨first, firstShort, here⟩ fresh
  · exact unshared first second other firstShort secondShort here there

end New

/-- One slot is emptied. -/
structure Pruned (child after : ν → κ → Option ν) (table : ν) (key : κ) : Prop where
  gone : after table key = none
  same : ∀ other slot, (other ≠ table ∨ slot ≠ key) → after other slot = child other slot

section Less
variable (unshared : Unshared child root depth) (found : descend child root path = some table)
  (inner : path.length < depth) (pruned : Pruned child after table key)
include unshared found inner pruned

/-- Pruning removes exactly the paths through the slot. -/
theorem descend_prune (probe : List κ) (short : probe.length ≤ depth) : descend after root probe =
      if path ++ [key] <+: probe then none else descend child root probe := by
  induction probe using List.reverseRecOn with
  | nil => simp
  | append_singleton probe slot ih =>
    simp only [List.length_append, List.length_singleton] at short
    rw [descend_snoc, ih (by omega)]
    by_cases below : path ++ [key] <+: probe
    · rw [if_pos below, if_pos (below.trans (List.prefix_append _ _))]
      rfl
    · rw [if_neg below, descend_snoc]
      cases reached : descend child root probe with
      | none => simp
      | some other =>
        by_cases target : path ++ [key] = probe ++ [slot]
        · obtain ⟨samePath, sameKey⟩ := List.append_inj' target rfl
          cases sameKey
          rw [← samePath, found] at reached
          cases reached
          rw [if_pos (by rw [target])]
          exact pruned.gone
        · have outside : ¬ path ++ [key] <+: probe ++ [slot] := by
            rw [List.prefix_concat_iff]
            exact not_or.mpr ⟨target, below⟩
          rw [if_neg outside]
          refine pruned.same other slot ?_
          by_contra both
          rw [not_or, not_not, not_not] at both
          obtain ⟨rfl, rfl⟩ := both
          exact target (by rw [unshared probe path other (by omega) (by omega) reached found])

theorem unshared_prune : Unshared after root depth := by
  have view := descend_prune unshared found inner pruned
  intro first second other firstShort secondShort here there
  rw [view first firstShort] at here
  rw [view second secondShort] at there
  split at here
  · cases here
  · split at there
    · cases there
    · exact unshared first second other firstShort secondShort here there

end Less

end Graft

end LunaOS.PointerTree
