import Mathlib.Algebra.Ring.Parity
import Mathlib.Data.Finset.Max
import Mathlib.Data.Nat.Bitwise
import Mathlib.Tactic.Ring

/-! Tilings of an interval by pieces whose sizes are powers of two and which
begin at multiples of their size. Halving a piece and joining two buddies keep a
tiling, and next to every piece but the whole interval another piece begins at
the address of its buddy. -/
namespace LunaOS.DyadicTiling

structure Piece where
  start : Nat
  order : Nat
  deriving DecidableEq, Repr

def Piece.Holds (piece : Piece) (place : Nat) : Prop :=
  piece.start ≤ place ∧ place < piece.start + 2 ^ piece.order

instance (piece : Piece) (place : Nat) : Decidable (piece.Holds place) :=
  inferInstanceAs (Decidable (_ ∧ _))

/-- Every place of the interval is in exactly one of the pieces. -/
structure Tiles (base order : Nat) (pieces : List Piece) : Prop where
  aligned : ∀ piece ∈ pieces, 2 ^ piece.order ∣ piece.start
  inside : ∀ piece ∈ pieces, base ≤ piece.start ∧ piece.start + 2 ^ piece.order ≤ base + 2 ^ order
  once : ∀ place, base ≤ place → place < base + 2 ^ order → pieces.countP (·.Holds place) = 1

/-- Where the piece begins that a piece may be joined with. -/
def buddy (start order : Nat) : Nat := start ^^^ 2 ^ order

/-! ## Buddies -/

theorem step_le {unit first second : Nat} (left : unit ∣ first) (right : unit ∣ second) (less : first < second) :
    first + unit ≤ second := by
  have between : unit ≤ second - first := Nat.le_of_dvd (by omega) (Nat.dvd_sub right left)
  omega

theorem buddy_cases (aligned : 2 ^ order ∣ start) :
    (2 ^ (order + 1) ∣ start ∧ buddy start order = start + 2 ^ order) ∨
      2 ^ order ≤ start ∧ 2 ^ (order + 1) ∣ start - 2 ^ order ∧ buddy start order = start - 2 ^ order := by
  obtain ⟨count, rfl⟩ := aligned
  have xor : buddy (2 ^ order * count) order = 2 ^ order * (count ^^^ 1) := by
    have unit : 2 ^ order = 1 <<< order := by rw [Nat.shiftLeft_eq, Nat.one_mul]
    rw [buddy, Nat.mul_comm, Nat.mul_comm _ (count ^^^ 1), ← Nat.shiftLeft_eq, ← Nat.shiftLeft_eq,
      Nat.shiftLeft_xor_distrib, ← unit]
  rcases Nat.even_or_odd count with even | odd
  · left
    rw [xor, Nat.xor_one_of_even even, Nat.mul_add, Nat.mul_one]
    obtain ⟨half, rfl⟩ := even
    exact ⟨⟨half, by ring⟩, rfl⟩
  · right
    rw [xor, Nat.xor_one_of_odd odd]
    obtain ⟨half, rfl⟩ := odd
    have sum : 2 ^ order * (2 * half + 1) = 2 ^ (order + 1) * half + 2 ^ order := by ring
    have rest : 2 ^ order * (2 * half + 1 - 1) = 2 ^ (order + 1) * half := by
      rw [Nat.add_sub_cancel]
      ring
    exact ⟨Nat.le_add_left _ _, ⟨half, by omega⟩, by omega⟩

theorem buddy_buddy (start order : Nat) : buddy (buddy start order) order = start := by
  simp only [buddy, Nat.xor_assoc, Nat.xor_self, Nat.xor_zero]

theorem buddy_ne (start order : Nat) : buddy start order ≠ start := by
  intro same
  have zero : start ^^^ buddy start order = 0 := by rw [same, Nat.xor_self]
  rw [buddy, ← Nat.xor_assoc, Nat.xor_self, Nat.zero_xor] at zero
  exact absurd zero (Nat.two_pow_pos order).ne'

/-! ## Tilings -/

section Tilings
variable {base height : Nat} {pieces rest : List Piece}

theorem Tiles.perm (tiles : Tiles base height pieces) (same : pieces.Perm rest) : Tiles base height rest where
  aligned piece member := tiles.aligned piece (same.mem_iff.mpr member)
  inside piece member := tiles.inside piece (same.mem_iff.mpr member)
  once place low high := by rw [← same.countP_eq]; exact tiles.once place low high

/-- A piece shares no place with any other. -/
theorem Tiles.apart (tiles : Tiles base height (piece :: rest)) (member : other ∈ rest) (here : piece.Holds place) :
    ¬ other.Holds place := by
  intro there
  obtain ⟨low, high⟩ := tiles.inside piece List.mem_cons_self
  have single := tiles.once place (by have := here.1; omega) (by have := here.2; omega)
  rw [List.countP_cons, if_pos (by simpa using here)] at single
  have more : 0 < rest.countP (·.Holds place) := List.countP_pos_iff.mpr ⟨other, member, by simpa using there⟩
  omega

theorem start_held (piece : Piece) : piece.Holds piece.start :=
  ⟨Nat.le_refl _, Nat.lt_add_of_pos_right (Nat.two_pow_pos piece.order)⟩

/-- One piece ends before the other begins. -/
def Piece.Separate (first second : Piece) : Prop :=
  first.start + 2 ^ first.order ≤ second.start ∨ second.start + 2 ^ second.order ≤ first.start

theorem Tiles.separate (tiles : Tiles base height (piece :: rest)) (member : other ∈ rest) : piece.Separate other := by
  by_contra meet
  obtain ⟨low, high⟩ := not_or.mp meet
  rcases Nat.le_total piece.start other.start with before | after
  · exact tiles.apart member ⟨before, Nat.not_le.mp low⟩ (start_held other)
  · exact tiles.apart member (start_held piece) ⟨after, Nat.not_le.mp high⟩

theorem Tiles.pairwise (tiles : Tiles base height pieces) : pieces.Pairwise Piece.Separate := by
  refine List.pairwise_iff_forall_sublist.mpr fun {first second} pair => ?_
  obtain ⟨rest, perm⟩ := pair.exists_perm_append
  exact (tiles.perm perm).separate List.mem_cons_self

theorem Tiles.starts_apart (tiles : Tiles base height (piece :: rest)) (member : other ∈ rest) :
    other.start ≠ piece.start := by
  intro same
  exact tiles.apart member (start_held piece) (same ▸ start_held other)

theorem Tiles.start_unique (tiles : Tiles base height pieces) (first : piece ∈ pieces) (second : other ∈ pieces)
    (same : other.start = piece.start) : other = piece := by
  by_contra differ
  exact (tiles.perm (List.perm_cons_erase first)).starts_apart ((List.mem_erase_of_ne differ).mpr second) same

theorem holds_halves (start order place : Nat) :
    (if decide (Piece.Holds ⟨start, order + 1⟩ place) = true then 1 else 0) =
      (if decide (Piece.Holds ⟨start, order⟩ place) = true then 1 else 0) +
        if decide (Piece.Holds ⟨start + 2 ^ order, order⟩ place) = true then 1 else 0 := by
  grind [Piece.Holds]

theorem Tiles.halve (tiles : Tiles base height (⟨start, order + 1⟩ :: rest)) :
    Tiles base height (⟨start, order⟩ :: ⟨start + 2 ^ order, order⟩ :: rest) := by
  obtain ⟨whole, aligned⟩ := List.forall_mem_cons.mp tiles.aligned
  obtain ⟨bounds, inside⟩ := List.forall_mem_cons.mp tiles.inside
  have half : 2 ^ order ∣ start := (Nat.pow_dvd_pow 2 (Nat.le_succ order)).trans whole
  simp only at bounds
  refine ⟨List.forall_mem_cons.mpr ⟨half, List.forall_mem_cons.mpr ⟨Nat.dvd_add half (Nat.dvd_refl _), aligned⟩⟩,
    List.forall_mem_cons.mpr ⟨?_, List.forall_mem_cons.mpr ⟨?_, inside⟩⟩, ?_⟩
  · simp only
    omega
  · simp only
    omega
  · intro place low high
    have single := tiles.once place low high
    rw [List.countP_cons, holds_halves] at single
    rw [List.countP_cons, List.countP_cons]
    omega

theorem Tiles.join (tiles : Tiles base height (⟨start, order⟩ :: ⟨start + 2 ^ order, order⟩ :: rest))
    (aligned : 2 ^ (order + 1) ∣ start) : Tiles base height (⟨start, order + 1⟩ :: rest) := by
  obtain ⟨left, right, inside⟩ : _ ∧ _ ∧ _ := by simpa only [List.forall_mem_cons] using tiles.inside
  have others := (List.forall_mem_cons.mp (List.forall_mem_cons.mp tiles.aligned).2).2
  refine ⟨List.forall_mem_cons.mpr ⟨aligned, others⟩, List.forall_mem_cons.mpr ⟨?_, inside⟩, ?_⟩
  · simp only at left right ⊢
    omega
  · intro place low high
    have single := tiles.once place low high
    rw [List.countP_cons, List.countP_cons] at single
    rw [List.countP_cons, holds_halves]
    omega

theorem tiles_whole (whole : 2 ^ height ∣ base) : Tiles base height [⟨base, height⟩] where
  aligned piece member := List.mem_singleton.mp member ▸ whole
  inside piece member := by
    obtain rfl := List.mem_singleton.mp member
    exact ⟨Nat.le_refl _, Nat.le_refl _⟩
  once place low high := by
    have here : Piece.Holds ⟨base, height⟩ place := ⟨low, high⟩
    rw [List.countP_singleton, if_pos (by simpa using here)]

/-- At the address of its buddy another piece begins, which is not larger. -/
theorem Tiles.buddy_begins (tiles : Tiles base height (⟨start, order⟩ :: rest)) (whole : 2 ^ height ∣ base)
    (below : order < height) : ∃ other ∈ rest, other.start = buddy start order ∧ other.order ≤ order := by
  have aligned : 2 ^ order ∣ start := tiles.aligned _ List.mem_cons_self
  obtain ⟨low, high⟩ := tiles.inside _ List.mem_cons_self
  simp only at low high
  have lowest : 2 ^ (order + 1) ∣ base := (Nat.pow_dvd_pow 2 below).trans whole
  have highest : 2 ^ (order + 1) ∣ base + 2 ^ height := Nat.dvd_add lowest (Nat.pow_dvd_pow 2 below)
  -- Both buddies are halves of the piece at `joint`.
  obtain ⟨joint, jointAligned, halves⟩ : ∃ joint, 2 ^ (order + 1) ∣ joint ∧
      (start = joint ∧ buddy start order = joint + 2 ^ order ∨
        start = joint + 2 ^ order ∧ buddy start order = joint) := by
    rcases buddy_cases aligned with ⟨even, right⟩ | ⟨room, odd, left⟩
    · exact ⟨start, even, .inl ⟨rfl, right⟩⟩
    · exact ⟨start - 2 ^ order, odd, .inr ⟨by omega, left⟩⟩
  have first : base ≤ joint := by
    by_contra less
    have := step_le jointAligned lowest (by omega)
    omega
  have last : joint + 2 ^ (order + 1) ≤ base + 2 ^ height := step_le jointAligned highest (by omega)
  have single := tiles.once (buddy start order) (by omega) (by omega)
  obtain ⟨other, member, there⟩ := List.countP_pos_iff.mp (Nat.lt_of_lt_of_eq Nat.one_pos single.symm)
  simp only [decide_eq_true_eq] at there
  obtain ⟨before, behind⟩ := there
  rcases List.mem_cons.mp member with rfl | member
  · simp only at before behind
    omega
  refine ⟨other, member, ?_⟩
  have otherAligned := tiles.aligned _ (List.mem_cons_of_mem _ member)
  have small : other.order ≤ order := by
    by_contra larger
    have unit : 2 ^ (order + 1) ∣ 2 ^ other.order := Nat.pow_dvd_pow 2 (by omega)
    have opens : other.start ≤ joint := by
      by_contra late
      have := step_le jointAligned (unit.trans otherAligned) (by omega)
      omega
    have closes : joint + 2 ^ (order + 1) ≤ other.start + 2 ^ other.order :=
      step_le jointAligned (Nat.dvd_add (unit.trans otherAligned) unit) (by omega)
    exact tiles.apart member (start_held ⟨start, order⟩) ⟨by simp only; omega, by simp only; omega⟩
  refine ⟨?_, small⟩
  have target : 2 ^ other.order ∣ buddy start order := by
    have unit : 2 ^ other.order ∣ 2 ^ order := Nat.pow_dvd_pow 2 small
    have whole : 2 ^ other.order ∣ joint := (Nat.pow_dvd_pow 2 (by omega)).trans jointAligned
    rcases halves with ⟨_, right⟩ | ⟨_, left⟩
    · exact right ▸ Nat.dvd_add whole unit
    · exact left ▸ whole
  by_contra differ
  have := step_le otherAligned target (by omega)
  omega

theorem Tiles.merge (tiles : Tiles base height (⟨start, order⟩ :: ⟨buddy start order, order⟩ :: rest)) :
    Tiles base height (⟨min start (buddy start order), order + 1⟩ :: rest) := by
  have aligned : 2 ^ order ∣ start := tiles.aligned _ List.mem_cons_self
  rcases buddy_cases aligned with ⟨even, right⟩ | ⟨room, odd, left⟩
  · rw [right] at tiles ⊢
    rw [Nat.min_eq_left (Nat.le_add_right _ _)]
    exact tiles.join even
  · rw [left] at tiles ⊢
    rw [Nat.min_eq_right (Nat.sub_le _ _)]
    have swapped := tiles.perm (List.Perm.swap _ _ _)
    obtain ⟨lower, rfl⟩ : ∃ lower, start = lower + 2 ^ order := ⟨start - 2 ^ order, by omega⟩
    rw [Nat.add_sub_cancel] at swapped odd ⊢
    exact swapped.join odd

/-- When no two buddies of one size are left, the whole interval is one piece. -/
theorem Tiles.whole (tiles : Tiles base height pieces) (whole : 2 ^ height ∣ base)
    (merged : ∀ piece ∈ pieces, piece.order < height → ⟨buddy piece.start piece.order, piece.order⟩ ∉ pieces) :
    pieces = [⟨base, height⟩] := by
  have covered := tiles.once base (Nat.le_refl _) (Nat.lt_add_of_pos_right (Nat.two_pow_pos height))
  obtain ⟨found, member, _⟩ := List.countP_pos_iff.mp (Nat.lt_of_lt_of_eq Nat.one_pos covered.symm)
  -- The smallest piece has no buddy, so it is as large as the interval, and so are all.
  obtain ⟨least, small, minimal⟩ := Finset.exists_min_image pieces.toFinset Piece.order ⟨found, by simpa using member⟩
  rw [List.mem_toFinset] at small
  have large : height ≤ least.order := by
    by_contra below
    have others := tiles.perm (List.perm_cons_erase small)
    obtain ⟨other, there, begins, order⟩ := others.buddy_begins whole (by omega)
    have larger := minimal other (by simpa using List.mem_of_mem_erase there)
    have same : other = ⟨buddy least.start least.order, least.order⟩ := by
      cases other
      simp only [Piece.mk.injEq] at begins order larger ⊢
      omega
    exact merged least small (by omega) (same ▸ List.mem_of_mem_erase there)
  have equal : ∀ piece ∈ pieces, piece = ⟨base, height⟩ := by
    intro piece member
    have above := minimal piece (by simpa using member)
    obtain ⟨low, high⟩ := tiles.inside piece member
    have power : 2 ^ height ≤ 2 ^ piece.order := Nat.pow_le_pow_right (by decide) (by omega)
    have order : piece.order = height := Nat.pow_right_injective (Nat.le_refl 2) (show 2 ^ _ = 2 ^ _ by omega)
    cases piece
    simp only [Piece.mk.injEq] at low high order power ⊢
    omega
  have copies := List.eq_replicate_of_mem equal
  rw [copies, List.countP_replicate, if_pos (by simpa using start_held ⟨base, height⟩)] at covered
  rw [copies, covered]
  rfl

end Tilings

end LunaOS.DyadicTiling
