import LunaOS.RangeAllocator
import LunaOS.Tiling

/-! Runs of the virtual address range allocator. The headers are meant to tile
the range that was added, and the used ones to be exactly what callers hold.
`useRange` at the base of a longer free range leaves that range's page count
alone, so the tiling survives every run that makes no such request, and only
those. -/
namespace LunaOS.RangePartition
open PageArithmetic RangeAllocator Tiling
open BitVec hiding and_assoc

/-- The bytes of a range, as first address and length. -/
def bytes (range : BitVec 64 × BitVec 64) : Nat × Nat := (range.1.toNat, range.2.toNat * 4096)

def extent (range : AddressRange) : Nat × Nat := bytes (range.base, range.pages)

/-- The allocator and the allocations its callers hold, as base and pages. -/
structure Allocator where
  ranges : List AddressRange
  live : List (BitVec 64 × BitVec 64)

inductive Request where
  | allocateRange (pages : BitVec 64)
  | useRange (start size : BitVec 64)
  | freeRange (base : BitVec 64)
  deriving DecidableEq, Repr

/-- A caller holds what a call reported as granted, until it frees that base. -/
def serve (alloc : Allocator) : Request → Allocator
  | .allocateRange pages =>
    let (base, ranges) := allocateRange alloc.ranges pages
    ⟨ranges, if base = 0 then alloc.live else (base, pages) :: alloc.live⟩
  | .useRange start size =>
    let (granted, ranges) := useRange alloc.ranges start size
    ⟨ranges, if granted then (alignPageDown start, size) :: alloc.live else alloc.live⟩
  | .freeRange base =>
    ⟨freeRange alloc.ranges base, alloc.live.filter (fun allocation => allocation.1 ≠ base)⟩

def boot (start finish : BitVec 64) : Allocator := ⟨addRange [] start finish, []⟩

/-- Requests are for at least one page and do not wrap around the address space. -/
def Admissible : Request → Prop
  | .allocateRange pages => pages ≠ 0
  | .useRange start size => size ≠ 0 ∧ start.toNat + size.toNat * 4096 < 2 ^ 64
  | .freeRange _ => True

instance : (request : Request) → Decidable (Admissible request)
  | .allocateRange pages => inferInstanceAs (Decidable (pages ≠ 0))
  | .useRange start size =>
    inferInstanceAs (Decidable (size ≠ 0 ∧ start.toNat + size.toNat * 4096 < 2 ^ 64))
  | .freeRange _ => inferInstanceAs (Decidable True)

/-- A request for fewer pages than a free range has, beginning at its base. -/
def AtBase (ranges : List AddressRange) (start size : BitVec 64) : Prop :=
  ∃ range ∈ ranges, range.used = false ∧ range.base = alignPageDown start ∧ size < range.pages

instance : Decidable (AtBase ranges start size) :=
  inferInstanceAs (Decidable (∃ range ∈ ranges, _ ∧ _ ∧ _))

def Avoids (alloc : Allocator) : Request → Prop
  | .useRange start size => ¬ AtBase alloc.ranges start size
  | _ => True

instance (alloc : Allocator) : (request : Request) → Decidable (Avoids alloc request)
  | .useRange start size => inferInstanceAs (Decidable (¬ AtBase alloc.ranges start size))
  | .allocateRange _ => inferInstanceAs (Decidable True)
  | .freeRange _ => inferInstanceAs (Decidable True)

/-- Every request of the run is admissible and avoids the base case in the state
it is made in. -/
def Guarded : Allocator → List Request → Prop
  | _, [] => True
  | alloc, request :: rest =>
    Admissible request ∧ Avoids alloc request ∧ Guarded (serve alloc request) rest

structure Partition (start finish : BitVec 64) (alloc : Allocator) : Prop where
  sorted : alloc.ranges.Pairwise fun first second => first.base < second.base
  disjoint : alloc.ranges.Pairwise fun first second => Separate (extent first) (extent second)
  union : ∀ point, (∃ range ∈ alloc.ranges, Covers (extent range) point) ↔ start.toNat ≤ point ∧ point < finish.toNat
  exclusive : alloc.live.Pairwise fun first second => Separate (bytes first) (bytes second)

/-- The ranges in use, as their holders know them. -/
def handed (ranges : List AddressRange) : List (BitVec 64 × BitVec 64) :=
  (ranges.filter AddressRange.used).map fun range => (range.base, range.pages)

@[simp] theorem handed_append (front back : List AddressRange) :
    handed (front ++ back) = handed front ++ handed back := by
  simp [handed]

@[simp] theorem handed_cons (range : AddressRange) (rest : List AddressRange) : handed (range :: rest) =
      if range.used then (range.base, range.pages) :: handed rest else handed rest := by
  cases used : range.used <;> simp [handed, used]

/-- The invariant of the list: page-aligned, non-empty tiles of the whole range. -/
structure Tiled (low high : Nat) (ranges : List AddressRange) : Prop where
  tiles : Tiles extent low ranges high
  aligned : ∀ range ∈ ranges, range.base.toNat % 4096 = 0
  filled : ∀ range ∈ ranges, 0 < range.pages.toNat
  top : high < 2 ^ 64

theorem tiled_inside (tiled : Tiled low high ranges) (member : range ∈ ranges) :
    low ≤ range.base.toNat ∧ range.base.toNat + range.pages.toNat * 4096 ≤ high :=
  tiles_inside tiled.tiles member

theorem tiled_sorted (tiled : Tiled low high ranges) :
    ranges.Pairwise fun first second => first.base < second.base := by
  refine (tiles_ordered tiled.tiles).imp_of_mem ?_
  intro first second member _ order
  have some := tiled.filled first member
  simp only [extent, bytes] at order
  rw [lt_def]
  omega

/-- A stretch of ranges may be replaced by pieces that tile the same bytes. -/
theorem tiled_replace {pre olds post news : List AddressRange} (tiled : Tiled low high (pre ++ olds ++ post))
    (exchange : ∀ {first last}, Tiles extent first olds last → Tiles extent first news last)
    (aligned : ∀ piece ∈ news, piece.base.toNat % 4096 = 0)
    (filled : ∀ piece ∈ news, 0 < piece.pages.toNat) : Tiled low high (pre ++ news ++ post) where
  tiles := tiles_replace tiled.tiles exchange
  aligned := by
    intro piece member
    simp only [List.append_assoc, List.mem_append] at member
    rcases member with early | new | late
    · exact tiled.aligned piece (by simp [early])
    · exact aligned piece new
    · exact tiled.aligned piece (by simp [late])
  filled := by
    intro piece member
    simp only [List.append_assoc, List.mem_append] at member
    rcases member with early | new | late
    · exact tiled.filled piece (by simp [early])
    · exact filled piece new
    · exact tiled.filled piece (by simp [late])
  top := tiled.top

/-! ## One request -/

section Requests
variable {pre post : List AddressRange} {range : AddressRange}

theorem take_tiled {pages : BitVec 64} (tiled : Tiled low high (pre ++ [range] ++ post))
    (pos : pages ≠ 0) (enough : pages ≤ range.pages) : Tiled low high (pre ++ take range pages ++ post) := by
  have member : range ∈ pre ++ [range] ++ post := by simp
  have inside := tiled_inside tiled member
  have aligned := tiled.aligned range member
  have top := tiled.top
  have some : 0 < pages.toNat := by bv_omega
  have within : pages.toNat ≤ range.pages.toNat := enough
  have split : (range.base + pages * pageSize).toNat = range.base.toNat + pages.toNat * 4096 := pages_end (by omega)
  by_cases larger : pages < range.pages
  · have rest : (range.pages - pages).toNat = range.pages.toNat - pages.toNat := by bv_omega
    have left : pages.toNat < range.pages.toNat := larger
    simp only [take, if_pos larger]
    refine tiled_replace tiled ?_ ?_ ?_
    · rintro first last ⟨start, finish⟩
      simp only [extent, bytes] at start finish
      refine ⟨start, ?_, ?_⟩
      · simp only [extent, bytes, split]; omega
      · simp only [extent, bytes, rest] at finish ⊢
        change _ = last at finish
        change _ = last
        omega
    · simp only [List.mem_cons, List.not_mem_nil, or_false, forall_eq_or_imp, forall_eq]
      omega
    · simp only [List.mem_cons, List.not_mem_nil, or_false, forall_eq_or_imp, forall_eq]
      omega
  · have same : pages = range.pages := by bv_omega
    simp only [take, if_neg larger]
    refine tiled_replace tiled ?_ (by simpa using aligned) (by simpa using some)
    rintro first last ⟨start, finish⟩
    exact ⟨start, by rw [same]; exact finish⟩

theorem handed_take (pages : BitVec 64) (free : range.used = false) : (handed (pre ++ take range pages ++ post)).Perm
      ((range.base, pages) :: handed (pre ++ [range] ++ post)) := by
  by_cases larger : pages < range.pages <;>
    simp only [take, larger, handed_append, handed_cons, free, ↓reduceIte,
      Bool.false_eq_true, List.append_assoc, List.cons_append, List.nil_append]
  all_goals exact List.perm_middle

/-- The two comparisons of `useRange`, without the machine's arithmetic. -/
theorem contains_iff {start size : BitVec 64} (wraps : start.toNat + size.toNat * 4096 < 2 ^ 64)
    (ends : range.base.toNat + range.pages.toNat * 4096 < 2 ^ 64) :
    Contains range start size = true ↔ range.used = false ∧ range.base.toNat ≤ start.toNat / 4096 * 4096 ∧
      start.toNat / 4096 * 4096 + size.toNat * 4096 < range.base.toNat + range.pages.toNat * 4096 := by
  have place := alignPageDown_toNat start
  have request : (alignPageDown start + size * pageSize).toNat = start.toNat / 4096 * 4096 + size.toNat * 4096 := by
    rw [pages_end (by omega), place]
  have finish : range.finish.toNat = range.base.toNat + range.pages.toNat * 4096 := pages_end ends
  simp [Contains, le_def, lt_def, place, request, finish, and_assoc]

/-- A request strictly inside a free range cuts it in three. -/
theorem occupy_tiled {start size : BitVec 64} (tiled : Tiled low high (pre ++ [range] ++ post))
    (pos : size ≠ 0) (wraps : start.toNat + size.toNat * 4096 < 2 ^ 64)
    (inside : Contains range start size = true) (interior : range.base ≠ alignPageDown start) :
    Tiled low high (pre ++ occupy range start size ++ post) := by
  have member : range ∈ pre ++ [range] ++ post := by simp
  have bounds := tiled_inside tiled member
  have aligned := tiled.aligned range member
  have top := tiled.top
  obtain ⟨_, above, below⟩ := (contains_iff wraps (by omega)).mp inside
  have place := alignPageDown_toNat start
  have some : 0 < size.toNat := by bv_omega
  have apart : range.base.toNat ≠ start.toNat / 4096 * 4096 := by
    rw [← place]
    exact fun same => interior (eq_of_toNat_eq same)
  have before : ((alignPageDown start - range.base) / pageSize).toNat =
      start.toNat / 4096 - range.base.toNat / 4096 := by
    rw [toNat_udiv, toNat_sub_of_le (by rw [le_def, place]; exact above), place, pageSize_toNat]
    omega
  have after : (alignPageDown start + size * pageSize).toNat = start.toNat / 4096 * 4096 + size.toNat * 4096 := by
    rw [pages_end (by omega), place]
  have rest : (range.pages - ((alignPageDown start - range.base) / pageSize + size)).toNat =
      range.pages.toNat - (start.toNat / 4096 - range.base.toNat / 4096 + size.toNat) := by
    have sum : ((alignPageDown start - range.base) / pageSize + size).toNat =
        start.toNat / 4096 - range.base.toNat / 4096 + size.toNat := by
      rw [toNat_add, before]
      omega
    rw [toNat_sub_of_le (by rw [le_def, sum]; omega), sum]
  simp only [occupy, if_neg interior]
  refine tiled_replace tiled ?_ ?_ ?_
  · rintro first last ⟨begin, finish⟩
    simp only [extent, bytes] at begin finish
    change _ = last at finish
    refine ⟨begin, ?_, ?_, ?_⟩
    · simp only [extent, bytes, before, place]; omega
    · simp only [extent, bytes, before, after]; omega
    · simp only [extent, bytes, before, rest]
      change _ = last
      omega
  · simp only [List.mem_cons, List.not_mem_nil, or_false, forall_eq_or_imp, forall_eq, place, after]
    omega
  · simp only [List.mem_cons, List.not_mem_nil, or_false, forall_eq_or_imp, forall_eq, before, rest]
    omega

theorem handed_occupy {start size : BitVec 64} (free : range.used = false)
    (interior : range.base ≠ alignPageDown start) : (handed (pre ++ occupy range start size ++ post)).Perm
      ((alignPageDown start, size) :: handed (pre ++ [range] ++ post)) := by
  simp only [occupy, if_neg interior, handed_append, handed_cons, free, ↓reduceIte,
    Bool.false_eq_true, List.append_assoc, List.cons_append, List.nil_append]
  exact List.perm_middle

theorem release_tiled (tiled : Tiled low high (pre ++ [range] ++ post)) :
    Tiled low high (pre ++ [{ range with used := false }] ++ post) := by
  have member : range ∈ pre ++ [range] ++ post := by simp
  refine tiled_replace tiled ?_ (by simpa using tiled.aligned range member)
    (by simpa using tiled.filled range member)
  intro first last one
  exact one

theorem handed_release (used : range.used = true) : (handed (pre ++ [range] ++ post)).Perm
      ((range.base, range.pages) :: handed (pre ++ [{ range with used := false }] ++ post)) := by
  simp only [handed_append, handed_cons, used, ↓reduceIte, Bool.false_eq_true,
    List.append_assoc, List.singleton_append]
  exact List.perm_middle

end Requests

theorem absorb_tiled (pre post : List AddressRange) {range following : AddressRange}
    (tiled : Tiled low high (pre ++ [range, following] ++ post)) :
    Tiled low high (pre ++ [{ range with pages := range.pages + following.pages }] ++ post) := by
  have member : range ∈ pre ++ [range, following] ++ post := by simp
  have inside := tiled_inside tiled member
  have next := tiled_inside tiled (show following ∈ _ by simp)
  have some := tiled.filled range member
  have top := tiled.top
  have ordered : range.base.toNat + range.pages.toNat * 4096 ≤ following.base.toNat :=
    (List.pairwise_cons.mp (List.pairwise_append.mp (List.pairwise_append.mp
      (tiles_ordered tiled.tiles)).1).2.1).1 following (by simp)
  have sum : (range.pages + following.pages).toNat = range.pages.toNat + following.pages.toNat := by
    rw [toNat_add]
    omega
  refine tiled_replace tiled ?_ (by simpa using tiled.aligned range member) ?_
  · rintro first last ⟨start, _, finish⟩
    simp only [extent, bytes] at start finish
    change _ = last at finish
    refine ⟨start, ?_⟩
    simp only [extent, bytes, sum]
    change _ = last
    omega
  · simp only [List.mem_singleton, forall_eq, sum]
    omega

theorem mergeFrom_tiled (pre : List AddressRange) (tiled : Tiled low high (pre ++ range :: rest)) :
    Tiled low high (pre ++ mergeFrom range rest) := by
  induction rest generalizing pre range with
  | nil => exact tiled
  | cons following rest ih =>
    rw [mergeFrom]
    split
    · exact ih pre (by simpa using absorb_tiled pre rest (by simpa using tiled))
    · simpa using ih (pre ++ [range]) (by simpa using tiled)

theorem handed_mergeFrom (range : AddressRange) (rest : List AddressRange) :
    handed (mergeFrom range rest) = handed (range :: rest) := by
  induction rest generalizing range with
  | nil => rfl
  | cons following rest ih =>
    rw [mergeFrom]
    split
    · rename_i joins
      obtain ⟨⟨free, idle⟩, _⟩ : (range.used = false ∧ following.used = false) ∧ _ := by
        simpa using joins
      simp [ih, free, idle]
    · rw [handed_cons, ih, handed_cons range]

theorem mergeAll_tiled (tiled : Tiled low high ranges) : Tiled low high (mergeAll ranges) := by
  cases ranges with
  | nil => exact tiled
  | cons range rest => exact mergeFrom_tiled [] tiled

theorem handed_mergeAll (ranges : List AddressRange) : handed (mergeAll ranges) = handed ranges := by
  cases ranges with
  | nil => rfl
  | cons range rest => exact handed_mergeFrom range rest

/-! ## Whole runs -/

/-- Ranges tile the bytes added, and callers hold used ranges only. -/
structure Sound (low high : Nat) (alloc : Allocator) : Prop where
  tiled : Tiled low high alloc.ranges
  held : alloc.live.Subperm (handed alloc.ranges)

theorem sound_partition {start finish : BitVec 64}
    (sound : Sound start.toNat finish.toNat alloc) : Partition start finish alloc where
  sorted := tiled_sorted sound.tiled
  disjoint := tiles_separate sound.tiled.tiles
  union := tiles_cover sound.tiled.tiles
  exclusive := by
    obtain ⟨same, perm, sub⟩ := sound.held
    have all : (handed alloc.ranges).Pairwise fun first second =>
        Separate (bytes first) (bytes second) :=
      List.pairwise_map.mpr ((tiles_separate sound.tiled.tiles).filter _)
    exact (perm.pairwise_iff Separate.symm).mp (all.sublist sub)

section Served
variable (sound : Sound low high alloc)
include sound

theorem allocate_sound (pos : pages ≠ 0) : Sound low high (serve alloc (.allocateRange pages)) := by
  obtain ⟨ranges, live⟩ := alloc
  obtain ⟨tiled, held⟩ := sound
  rcases allocateRange_cases ranges pages with
    ⟨missed, _⟩ | ⟨pre, range, post, rfl, free, enough, taken⟩
  · simp only [serve, missed, ↓reduceIte]
    exact ⟨tiled, held⟩
  · simp only [serve, taken]
    refine ⟨take_tiled tiled pos enough, List.Subperm.trans ?_ (handed_take pages free).symm.subperm⟩
    split
    · exact held.cons_right _
    · exact (List.subperm_cons _).mpr held

/-- Granting a request away from the base of a free range. -/
theorem use_sound {start size : BitVec 64}
    (admissible : Admissible (.useRange start size)) (avoids : ¬ AtBase alloc.ranges start size) :
    Sound low high (serve alloc (.useRange start size)) := by
  obtain ⟨ranges, live⟩ := alloc
  obtain ⟨tiled, held⟩ := sound
  obtain ⟨pos, wraps⟩ := admissible
  rcases useRange_cases ranges start size with
    ⟨missed, _⟩ | ⟨pre, range, post, rfl, inside, occupied⟩
  · simp only [serve, missed, Bool.false_eq_true, ↓reduceIte]
    exact ⟨tiled, held⟩
  · have bounds := tiled_inside tiled (show range ∈ pre ++ [range] ++ post by simp)
    have top := tiled.top
    obtain ⟨free, _, below⟩ := (contains_iff wraps (by omega)).mp inside
    have interior : range.base ≠ alignPageDown start := by
      intro same
      have place := alignPageDown_toNat start
      rw [← same] at place
      exact avoids ⟨range, by simp, free, same, by rw [lt_def]; omega⟩
    simp only [serve, occupied, ↓reduceIte]
    exact ⟨occupy_tiled tiled pos wraps inside interior,
      ((List.subperm_cons _).mpr held).trans (handed_occupy free interior).symm.subperm⟩

theorem release_sound : Sound low high (serve alloc (.freeRange base)) := by
  obtain ⟨ranges, live⟩ := alloc
  obtain ⟨tiled, held⟩ := sound
  rcases releaseRange_cases ranges base with
    missed | ⟨pre, range, post, rfl, used, place, released⟩
  · simp only [serve, freeRange, missed]
    exact ⟨tiled, List.filter_sublist.subperm.trans held⟩
  · simp only [serve, freeRange, released]
    refine ⟨mergeAll_tiled (release_tiled tiled), ?_⟩
    rw [handed_mergeAll]
    have kept := (held.trans (handed_release used).subperm).filter
      (fun allocation : BitVec 64 × BitVec 64 => allocation.1 ≠ base)
    rw [List.filter_cons_of_neg (by simp [place])] at kept
    exact kept.trans List.filter_sublist.subperm

theorem serve_sound (admissible : Admissible request)
    (avoids : Avoids alloc request) : Sound low high (serve alloc request) := by
  cases request with
  | allocateRange pages => exact allocate_sound sound admissible
  | useRange start size => exact use_sound sound admissible avoids
  | freeRange base => exact release_sound sound

end Served

/-- At the base of a longer free range the marked range keeps all its pages, the
split-off ones included: both headers cover the page after the request. -/
theorem base_overlaps {start size : BitVec 64} (tiled : Tiled low high ranges)
    (wraps : start.toNat + size.toNat * 4096 < 2 ^ 64) (atBase : AtBase ranges start size) :
    ¬ (useRange ranges start size).2.Pairwise fun first second => Separate (extent first) (extent second) := by
  obtain ⟨range, member, free, same, larger⟩ := atBase
  have top := tiled.top
  have place := alignPageDown_toNat start
  have fits : size.toNat < range.pages.toNat := larger
  have bounds := tiled_inside tiled member
  have contained : Contains range start size = true := by
    rw [contains_iff wraps (by omega)]
    rw [same] at bounds ⊢
    exact ⟨free, by omega, by omega⟩
  rcases useRange_cases ranges start size with
    ⟨_, none⟩ | ⟨pre, found, post, rfl, inside, occupied⟩
  · exact absurd contained (by simp [none range member])
  · have reach := tiled_inside tiled (show found ∈ pre ++ [found] ++ post by simp)
    obtain ⟨_, above, below⟩ := (contains_iff wraps (by omega)).mp inside
    have equal : found = range := by
      have here : Covers (extent found) (start.toNat / 4096 * 4096) := by
        simp only [Covers, extent, bytes]
        omega
      refine tiles_unique tiled.tiles (by simp) member here ?_
      simp only [Covers, extent, bytes, same, place]
      omega
    subst equal
    rw [occupied]
    intro apart
    have both := (List.pairwise_append.mp (List.pairwise_append.mp apart).1).2.1
    simp only [occupy, if_pos same] at both
    have split : (found.base + size * pageSize).toNat = found.base.toNat + size.toNat * 4096 := pages_end (by omega)
    have rest : (found.pages - size).toNat = found.pages.toNat - size.toNat :=
      toNat_sub_of_le (BitVec.le_of_lt larger)
    refine (List.pairwise_cons.mp both).1 _ (List.mem_singleton_self _) (found.base.toNat + size.toNat * 4096) ?_
    simp only [Covers, extent, bytes, split, rest]
    omega

theorem boot_ranges (start finish : BitVec 64) :
    (boot start finish).ranges = [⟨start, (finish - start) / pageSize, false⟩] := rfl

/-- A range without a page never grants anything. -/
theorem serve_empty (admissible : Admissible request) :
    serve ⟨[⟨base, 0, false⟩], []⟩ request = ⟨[⟨base, 0, false⟩], []⟩ := by
  cases request with
  | allocateRange pages =>
    have short : (!false && decide (pages ≤ 0)) = false := by
      simpa [Admissible] using admissible
    simp only [serve, allocateRange, short, Bool.false_eq_true, ↓reduceIte]
  | useRange start size =>
    have missed : Contains ⟨base, 0, false⟩ start size = false := by
      have ends : base.toNat + (0 : BitVec 64).toNat * 4096 < 2 ^ 64 := base.isLt
      rw [← Bool.not_eq_true, contains_iff admissible.2 ends]
      rintro ⟨_, above, below⟩
      rw [show (0 : BitVec 64).toNat = 0 from rfl, Nat.zero_mul, Nat.add_zero] at below
      exact absurd below (Nat.not_lt.mpr (Nat.le_trans above (Nat.le_add_right _ _)))
    simp only [serve, useRange, missed, Bool.false_eq_true, ↓reduceIte]
  | freeRange other =>
    have none : releaseRange [⟨base, 0, false⟩] other = none := by
      simp [releaseRange]
    simp only [serve, freeRange, none, List.filter_nil]

theorem boot_sound {start finish : BitVec 64} (first : start.toNat % 4096 = 0)
    (last : finish.toNat % 4096 = 0) (order : start < finish) :
    Sound start.toNat finish.toNat (boot start finish) where
  tiled := by
    have below : start.toNat < finish.toNat := order
    have pages : ((finish - start) / pageSize).toNat = (finish.toNat - start.toNat) / 4096 := by
      rw [toNat_udiv, toNat_sub_of_le (BitVec.le_of_lt order), pageSize_toNat]
    rw [boot_ranges]
    refine ⟨⟨rfl, ?_⟩, by simpa using first, ?_, finish.isLt⟩
    · simp only [extent, bytes, pages]
      change _ = finish.toNat
      omega
    · simp only [List.mem_singleton, forall_eq, pages]
      omega
  held := List.nil_subperm

theorem run_sound (sound : Sound low high alloc) (guarded : Guarded alloc requests) :
    Sound low high (requests.foldl serve alloc) := by
  induction requests generalizing alloc with
  | nil => exact sound
  | cons request rest ih =>
    obtain ⟨admissible, avoids, onward⟩ := guarded
    exact ih (serve_sound sound admissible avoids) onward

theorem run_empty (guarded : Guarded ⟨[⟨base, 0, false⟩], []⟩ requests) :
    requests.foldl serve ⟨[⟨base, 0, false⟩], []⟩ = ⟨[⟨base, 0, false⟩], []⟩ := by
  induction requests with
  | nil => rfl
  | cons request rest ih =>
    obtain ⟨admissible, _, onward⟩ := guarded
    rw [serve_empty admissible] at onward
    rw [List.foldl_cons, serve_empty admissible]
    exact ih onward

theorem empty_partition (base : BitVec 64) : Partition base base ⟨[⟨base, 0, false⟩], []⟩ where
  sorted := List.pairwise_singleton _ _
  disjoint := List.pairwise_singleton _ _
  union := by
    intro point
    simp only [List.mem_singleton, exists_eq_left, Covers, extent, bytes]
    change _ ∧ point < base.toNat + 0 ↔ _
    rw [Nat.add_zero]
  exclusive := List.Pairwise.nil

/-- In every state a guarded run reaches the headers are a sorted partition of
the range added and no two allocations share a page, and the next request keeps
it so exactly when it is not for the base of a longer free range. -/
theorem partition_iff_avoids (start finish : BitVec 64) (first : start.toNat % 4096 = 0)
    (last : finish.toNat % 4096 = 0) (order : start ≤ finish) (requests : List Request)
    (guarded : Guarded (boot start finish) requests) :
    Partition start finish (requests.foldl serve (boot start finish)) ∧ ∀ request, Admissible request →
        (Partition start finish (serve (requests.foldl serve (boot start finish)) request) ↔
          Avoids (requests.foldl serve (boot start finish)) request) := by
  by_cases empty : start = finish
  · subst empty
    have none : boot start start = ⟨[⟨start, 0, false⟩], []⟩ := by
      simp [boot, addRange, mergeAll, mergeFrom, pageSize]
    rw [none] at guarded ⊢
    rw [run_empty guarded]
    refine ⟨empty_partition start, ?_⟩
    intro request admissible
    rw [serve_empty admissible]
    refine iff_of_true (empty_partition start) ?_
    cases request with
    | useRange other size =>
      rintro ⟨range, member, _, _, larger⟩
      rw [List.mem_singleton.mp member] at larger
      exact absurd larger BitVec.not_lt_zero
    | allocateRange pages => trivial
    | freeRange base => trivial
  · have below : start < finish := by bv_omega
    have sound := run_sound (boot_sound first last below) guarded
    refine ⟨sound_partition sound, ?_⟩
    intro request admissible
    refine ⟨?_, fun avoids => sound_partition (serve_sound sound admissible avoids)⟩
    intro partition
    cases request with
    | useRange other size =>
      intro atBase
      exact base_overlaps sound.tiled admissible.2 atBase partition.disjoint
    | allocateRange pages => trivial
    | freeRange base => trivial

/-- The range of a process, in use and freed away from its base. -/
theorem partition_process_range : Partition 0x1000 0xFFFF400000000000
      ([.useRange 0x5000 2, .allocateRange 3, .freeRange 0x5000].foldl serve (boot 0x1000 0xFFFF400000000000)) := by
  refine (partition_iff_avoids _ _ (by decide) (by decide) (by decide) _ ?_).1
  exact ⟨by decide, by decide, by decide, trivial, trivial, trivial, trivial⟩

/-- Two pages at the base of a process's range, three more, the first ones freed
and five asked for: the last allocation overlaps the one still held. -/
theorem base_request_shares_pages : let requests : List Request :=
      [.useRange 0x1000 2, .allocateRange 3, .freeRange 0x1000, .allocateRange 5]
    let alloc := requests.foldl serve (boot 0x1000 0xFFFF400000000000)
    (∀ request ∈ requests, Admissible request) ∧ alloc.live = [(0x1000, 5), (0x3000, 3)] ∧
      ¬ Partition 0x1000 0xFFFF400000000000 alloc := by
  intro requests alloc
  have held : alloc.live = [(0x1000, 5), (0x3000, 3)] := by decide +kernel
  refine ⟨by simp [requests, Admissible], held, ?_⟩
  intro partition
  have apart := partition.exclusive
  rw [held] at apart
  refine (List.pairwise_cons.mp apart).1 (0x3000, 3) (by simp) 0x3000 ?_
  exact ⟨⟨by decide, by decide⟩, by decide, by decide⟩

end LunaOS.RangePartition
