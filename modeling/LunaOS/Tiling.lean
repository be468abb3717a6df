import Mathlib.Data.List.Pairwise
import Mathlib.Data.List.Perm.Subperm

/-! Lists of tiles that cover an interval without gap or overlap. A tile is any
value with a first point and a length; the rules say when a stretch of tiles may
be replaced by another, and what a tiling gives for single points. -/
namespace LunaOS.Tiling


section Rules
variable {α : Type} {span : α → Nat × Nat}

/-- Each tile begins where the one before it ended, from `low` up to `high`. -/
def Tiles (span : α → Nat × Nat) : Nat → List α → Nat → Prop
  | low, [], high => low = high
  | low, tile :: rest, high => (span tile).1 = low ∧ Tiles span (low + (span tile).2) rest high

/-- A point lies in a tile. -/
def Covers (region : Nat × Nat) (point : Nat) : Prop :=
  region.1 ≤ point ∧ point < region.1 + region.2

instance : Decidable (Covers region point) := inferInstanceAs (Decidable (_ ∧ _))

/-- Two regions have no point in common. -/
def Separate (first second : Nat × Nat) : Prop :=
  ∀ point, ¬ (Covers first point ∧ Covers second point)

theorem Separate.symm (apart : Separate first second) : Separate second first :=
  fun point both => apart point both.symm

theorem separate_of_le {first second : Nat × Nat} (order : first.1 + first.2 ≤ second.1) : Separate first second := by
  rintro point ⟨left, right⟩
  simp only [Covers] at left right
  omega

theorem tiles_append {front back : List α} : Tiles span low (front ++ back) high ↔
    ∃ middle, Tiles span low front middle ∧ Tiles span middle back high := by
  induction front generalizing low with
  | nil => simp [Tiles]
  | cons tile rest ih => simp only [List.cons_append, Tiles, ih, and_assoc, exists_and_left]

theorem tiles_singleton : Tiles span low [tile] high ↔ (span tile).1 = low ∧ low + (span tile).2 = high := Iff.rfl

/-- A stretch of tiles may be exchanged for any stretch over the same interval. -/
theorem tiles_replace {pre olds news post : List α} (tiled : Tiles span low (pre ++ olds ++ post) high)
    (exchange : ∀ {first last}, Tiles span first olds last → Tiles span first news last) :
    Tiles span low (pre ++ news ++ post) high := by
  obtain ⟨last, front, after⟩ := tiles_append.mp tiled
  obtain ⟨first, before, middle⟩ := tiles_append.mp front
  exact tiles_append.mpr ⟨last, tiles_append.mpr ⟨first, before, exchange middle⟩, after⟩

section Tiled
variable {tiles : List α} (tiled : Tiles span low tiles high)
include tiled

theorem tiles_le : low ≤ high := by
  induction tiles generalizing low with
  | nil => exact Nat.le_of_eq tiled
  | cons tile rest ih => exact Nat.le_trans (Nat.le_add_right _ _) (ih tiled.2)

theorem tiles_inside (member : tile ∈ tiles) : low ≤ (span tile).1 ∧ (span tile).1 + (span tile).2 ≤ high := by
  obtain ⟨pre, post, rfl⟩ := List.append_of_mem member
  obtain ⟨first, before, start, after⟩ := tiles_append.mp tiled
  have floor := tiles_le before
  have ceiling := tiles_le after
  omega

/-- Earlier tiles end before later ones begin. -/
theorem tiles_ordered : tiles.Pairwise fun first second => (span first).1 + (span first).2 ≤ (span second).1 := by
  induction tiles generalizing low with
  | nil => exact List.Pairwise.nil
  | cons tile rest ih =>
    obtain ⟨start, after⟩ := tiled
    refine List.pairwise_cons.mpr ⟨?_, ih after⟩
    intro later member
    have inside := tiles_inside after member
    omega

theorem tiles_separate : tiles.Pairwise fun first second => Separate (span first) (span second) :=
  (tiles_ordered tiled).imp separate_of_le

/-- No point lies in two tiles. -/
theorem tiles_unique {first second : α} (held : first ∈ tiles) (member : second ∈ tiles)
    (here : Covers (span first) point) (there : Covers (span second) point) : first = second := by
  obtain ⟨pre, post, rfl⟩ := List.append_of_mem held
  obtain ⟨_, tail, across⟩ := List.pairwise_append.mp (tiles_separate tiled)
  rcases List.mem_append.mp member with early | late
  · exact absurd ⟨there, here⟩ (across second early first (by simp) point)
  · rcases List.mem_cons.mp late with same | later
    · exact same.symm
    · exact absurd ⟨here, there⟩ ((List.pairwise_cons.mp tail).1 second later point)

/-- The points covered are exactly those of the interval. -/
theorem tiles_cover (point : Nat) : (∃ tile ∈ tiles, Covers (span tile) point) ↔ low ≤ point ∧ point < high := by
  induction tiles generalizing low with
  | nil =>
    cases show low = high from tiled
    simp only [List.not_mem_nil, false_and, exists_false, false_iff]
    omega
  | cons tile rest ih =>
    obtain ⟨start, after⟩ := tiled
    have order := tiles_le after
    simp only [List.mem_cons, exists_eq_or_imp]
    rw [ih after]
    simp only [Covers]
    omega

end Tiled

end Rules

end LunaOS.Tiling
