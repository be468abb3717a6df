import LunaOS.RangePartition

/-! What is free is never what was granted. A request at the base of a free range
leaves a used range behind that is too long, so the ranges no longer tile; but
the free ones stay apart from each other and from everything handed out. -/
namespace LunaOS.RangeGrants
open PageArithmetic RangeAllocator RangePartition Tiling BitVec

/-- A point in a range that is free. -/
def Free (range : AddressRange) (point : Nat) : Prop := range.used = false ∧ Covers (extent range) point

/-- The free ranges end at `limit`, have no point in common and none that was granted. -/
structure Unspent (limit : Nat) (granted : Nat → Prop) (ranges : List AddressRange) : Prop where
  apart : ranges.Pairwise fun first second => ∀ point, ¬ (Free first point ∧ Free second point)
  fits : ∀ range ∈ ranges, range.used = false →
    range.base.toNat % 4096 = 0 ∧ range.base.toNat + range.pages.toNat * 4096 ≤ limit
  clear : ∀ range ∈ ranges, ∀ point, Free range point → ¬ granted point

section Requests
variable {limit : Nat} {granted : Nat → Prop} {ranges pre post : List AddressRange} {range : AddressRange}

theorem unspent_append {front back : List AddressRange} : Unspent limit granted (front ++ back) ↔
    Unspent limit granted front ∧ Unspent limit granted back ∧
      ∀ first ∈ front, ∀ second ∈ back, ∀ point, ¬ (Free first point ∧ Free second point) := by
  constructor
  · rintro ⟨apart, fits, clear⟩
    obtain ⟨early, late, cross⟩ := List.pairwise_append.mp apart
    rw [List.forall_mem_append] at fits clear
    exact ⟨⟨early, fits.1, clear.1⟩, ⟨late, fits.2, clear.2⟩, cross⟩
  · rintro ⟨first, second, cross⟩
    exact ⟨List.pairwise_append.mpr ⟨first.apart, second.apart, cross⟩,
      List.forall_mem_append.mpr ⟨first.fits, second.fits⟩, List.forall_mem_append.mpr ⟨first.clear, second.clear⟩⟩

theorem Unspent.perm {others : List AddressRange} (unspent : Unspent limit granted ranges) (perm : ranges.Perm others) :
    Unspent limit granted others :=
  ⟨(perm.pairwise_iff fun apart point both => apart point both.symm).mp unspent.apart,
    fun range member => unspent.fits range (perm.mem_iff.mpr member),
    fun range member => unspent.clear range (perm.mem_iff.mpr member)⟩

/-- The ranges in the middle, and those around them. -/
theorem unspent_middle {news : List AddressRange} : Unspent limit granted (pre ++ news ++ post) ↔
    Unspent limit granted news ∧ Unspent limit granted (pre ++ post) ∧
      ∀ piece ∈ news, ∀ other ∈ pre ++ post, ∀ point, ¬ (Free piece point ∧ Free other point) := by
  have middle : (pre ++ news ++ post).Perm (news ++ (pre ++ post)) := by
    rw [List.append_assoc]
    exact List.perm_append_comm_assoc pre news post
  rw [← unspent_append]
  exact ⟨fun unspent => unspent.perm middle, fun unspent => unspent.perm middle.symm⟩

theorem unspent_singleton : Unspent limit granted [range] ↔ (range.used = false →
    range.base.toNat % 4096 = 0 ∧ range.base.toNat + range.pages.toNat * 4096 ≤ limit) ∧
      ∀ point, Free range point → ¬ granted point :=
  ⟨fun unspent => ⟨unspent.fits range (by simp), unspent.clear range (by simp)⟩,
    fun alone => ⟨List.pairwise_singleton _ _, by simpa using alone.1, by simpa using alone.2⟩⟩

/-- Pieces of a range, and some of its points given away. -/
theorem unspent_replace {news : List AddressRange} {given : Nat → Prop}
    (unspent : Unspent limit granted (pre ++ [range] ++ post)) (inside : ∀ point, given point → Free range point)
    (pieces : ∀ piece ∈ news, ∀ point, Free piece point → Free range point ∧ ¬ given point)
    (apart : news.Pairwise fun first second => ∀ point, ¬ (Free first point ∧ Free second point))
    (fits : ∀ piece ∈ news, piece.used = false →
      piece.base.toNat % 4096 = 0 ∧ piece.base.toNat + piece.pages.toNat * 4096 ≤ limit) :
    Unspent limit (fun point => granted point ∨ given point) (pre ++ news ++ post) := by
  obtain ⟨whole, rest, cross⟩ := unspent_middle.mp unspent
  refine unspent_middle.mpr ⟨⟨apart, fits, ?_⟩, ⟨rest.apart, rest.fits, ?_⟩, ?_⟩
  · rintro piece new point free (spent | here)
    · exact whole.clear range (by simp) point (pieces piece new point free).1 spent
    · exact (pieces piece new point free).2 here
  · rintro other member point free (spent | here)
    · exact rest.clear other member point free spent
    · exact cross range (by simp) other member point ⟨inside point here, free⟩
  · intro piece new other member point both
    exact cross range (by simp) other member point ⟨(pieces piece new point both.1).1, both.2⟩

/-- The points of a request. -/
def Asked (start size : BitVec 64) (point : Nat) : Prop :=
  start.toNat ≤ point ∧ point < start.toNat + size.toNat * 4096

/-- A range from `low` up to `high`. -/
def Ends (piece : AddressRange) (low high : Nat) : Prop :=
  piece.base.toNat = low ∧ piece.base.toNat + piece.pages.toNat * 4096 = high

/-- What a granted request leaves: perhaps the points before it, and those after it. -/
theorem occupy_shape {start size : BitVec 64} (aligned : range.base.toNat % 4096 = 0) (page : start.toNat % 4096 = 0)
    (ends : range.base.toNat + range.pages.toNat * 4096 < 2 ^ 64) (above : range.base.toNat ≤ start.toNat)
    (below : start.toNat + size.toNat * 4096 < range.base.toNat + range.pages.toNat * 4096) :
    ∃ front taken last, occupy range start size = front ++ [taken, last] ∧ taken.used = true ∧
      (front = [] ∨ ∃ first, front = [first] ∧ Ends first range.base.toNat start.toNat) ∧
      (taken.base.toNat % 4096 = 0 ∧
        taken.base.toNat + taken.pages.toNat * 4096 ≤ range.base.toNat + range.pages.toNat * 4096) ∧
      Ends last (start.toNat + size.toNat * 4096) (range.base.toNat + range.pages.toNat * 4096) := by
  have place : alignPageDown start = start := by
    refine eq_of_toNat_eq ?_
    rw [alignPageDown_toNat]
    omega
  have length : (size * pageSize).toNat = size.toNat * 4096 := pages_bytes (by omega)
  simp only [occupy, place]
  split
  · rename_i same
    refine ⟨[], _, _, rfl, rfl, .inl rfl, ⟨aligned, Nat.le_refl _⟩, ?_⟩
    have left : (range.pages - size).toNat = range.pages.toNat - size.toNat :=
      toNat_sub_of_le (by rw [le_def]; omega)
    simp only [Ends, toNat_add, length, left, same]
    omega
  · have before : ((start - range.base) / pageSize).toNat = start.toNat / 4096 - range.base.toNat / 4096 := by
      rw [toNat_udiv, toNat_sub_of_le (by rw [le_def]; exact above), pageSize_toNat]
      omega
    have sum : ((start - range.base) / pageSize + size).toNat =
        start.toNat / 4096 - range.base.toNat / 4096 + size.toNat := by
      rw [toNat_add, before]
      omega
    have left : (range.pages - ((start - range.base) / pageSize + size)).toNat =
        range.pages.toNat - (start.toNat / 4096 - range.base.toNat / 4096 + size.toNat) := by
      rw [toNat_sub_of_le (by rw [le_def, sum]; omega), sum]
    refine ⟨[_], _, _, rfl, rfl, .inr ⟨_, rfl, ?_⟩, ⟨page, Nat.le_of_lt below⟩, ?_⟩
    · refine ⟨rfl, ?_⟩
      dsimp only
      rw [before]
      clear left sum
      omega
    · have next : (start + size * pageSize).toNat = start.toNat + size.toNat * 4096 := pages_end (by omega)
      refine ⟨next, ?_⟩
      dsimp only
      rw [next, left]
      clear left sum next
      omega

theorem free_ends (ends : Ends piece low high) (free : Free piece point) : low ≤ point ∧ point < high := by
  simp only [Ends, Free, Covers, extent, bytes] at ends free
  omega

section Grants
variable (unspent : Unspent limit granted ranges)
include unspent

theorem use_unspent {start size : BitVec 64} (top : limit < 2 ^ 64)
    (page : start.toNat % 4096 = 0) (wraps : start.toNat + size.toNat * 4096 < 2 ^ 64)
    (found : (useRange ranges start size).1 = true) :
    Unspent limit (fun point => granted point ∨ Asked start size point) (useRange ranges start size).2 ∧
      ∀ point, Asked start size point → ¬ granted point := by
  rcases useRange_cases ranges start size with ⟨missed, _⟩ | ⟨pre, range, post, rfl, contained, used⟩
  · rw [missed] at found
    cases found
  have member : range ∈ pre ++ [range] ++ post := by simp
  have free : range.used = false := by
    simp only [Contains, Bool.and_eq_true, Bool.not_eq_true'] at contained
    exact contained.1.1
  obtain ⟨aligned, bound⟩ := unspent.fits range member free
  obtain ⟨_, above, below⟩ := (contains_iff wraps (by omega)).mp contained
  have down : start.toNat / 4096 * 4096 = start.toNat := by omega
  rw [down] at above below
  have whole : ∀ point, range.base.toNat ≤ point → point < range.base.toNat + range.pages.toNat * 4096 →
      Free range point := fun point low high => ⟨free, low, high⟩
  have inside : ∀ point, Asked start size point → Free range point := by
    rintro point ⟨low, high⟩
    exact whole point (by omega) (by omega)
  obtain ⟨front, taken, last, shape, busy, first, _, back⟩ := occupy_shape aligned page (by omega) above below
  have idle : ∀ point, ¬ Free taken point := fun point free => by
    rw [Free, busy] at free
    cases free.1
  rw [used, shape]
  refine ⟨unspent_replace unspent inside ?_ ?_ ?_,
    fun point asked => unspent.clear range member point (inside point asked)⟩
  · intro piece member point here
    have bounds : range.base.toNat ≤ point ∧ point < start.toNat ∨
        start.toNat + size.toNat * 4096 ≤ point ∧ point < range.base.toNat + range.pages.toNat * 4096 := by
      simp only [List.mem_append, List.mem_cons, List.not_mem_nil, or_false] at member
      rcases member with early | rfl | rfl
      · rcases first with rfl | ⟨first, rfl, ends⟩
        · cases early
        · cases List.mem_singleton.mp early
          exact .inl (free_ends ends here)
      · exact absurd here (idle point)
      · exact .inr (free_ends back here)
    refine ⟨whole point (by omega) (by omega), ?_⟩
    rintro ⟨low, high⟩
    omega
  · have tail : [taken, last].Pairwise fun first second => ∀ point, ¬ (Free first point ∧ Free second point) :=
      List.pairwise_pair.mpr fun point both => idle point both.1
    rcases first with rfl | ⟨first, rfl, ends⟩
    · exact tail
    · refine List.pairwise_cons.mpr ⟨?_, tail⟩
      intro other later point both
      rcases List.mem_pair.mp later with rfl | rfl
      · exact idle point both.2
      · have left := free_ends ends both.1
        have right := free_ends back both.2
        omega
  · intro piece member unused
    simp only [List.mem_append, List.mem_cons, List.not_mem_nil, or_false] at member
    rcases member with early | rfl | rfl
    · rcases first with rfl | ⟨first, rfl, ends⟩
      · cases early
      · cases List.mem_singleton.mp early
        obtain ⟨low, high⟩ := ends
        omega
    · rw [busy] at unused
      cases unused
    · obtain ⟨low, high⟩ := back
      omega

/-- A range handed out anywhere: it was free, and the rest stays so. -/
theorem allocate_grants (top : limit < 2 ^ 64) (pages : BitVec 64) : allocateRange ranges pages = (0, ranges) ∨
      Unspent limit (fun point => granted point ∨ Asked (allocateRange ranges pages).1 pages point)
          (allocateRange ranges pages).2 ∧
        (∀ point, Asked (allocateRange ranges pages).1 pages point → ¬ granted point) ∧
        (allocateRange ranges pages).1.toNat + pages.toNat * 4096 ≤ limit ∧
        (allocateRange ranges pages).1.toNat % 4096 = 0 := by
  rcases allocateRange_cases ranges pages with ⟨missed, _⟩ | ⟨pre, range, post, rfl, free, enough, taken⟩
  · exact .inl missed
  right
  have member : range ∈ pre ++ [range] ++ post := by simp
  obtain ⟨aligned, bound⟩ := unspent.fits range member free
  rw [le_def] at enough
  have ends : range.base.toNat + pages.toNat * 4096 ≤ limit :=
    Nat.le_trans (Nat.add_le_add_left (Nat.mul_le_mul_right 4096 enough) _) bound
  have next := pages_end (Nat.lt_of_le_of_lt ends top)
  have left : (range.pages - pages).toNat = range.pages.toNat - pages.toNat :=
    toNat_sub_of_le (by rw [le_def]; exact enough)
  have rest : ∀ piece ∈ take range pages, piece.used = false →
      piece.base.toNat = range.base.toNat + pages.toNat * 4096 ∧
        piece.pages.toNat = range.pages.toNat - pages.toNat ∧ pages.toNat < range.pages.toNat := by
    intro piece among unused
    rcases List.mem_cons.mp among with rfl | among
    · cases unused
    · split at among
      · rename_i larger
        cases List.mem_singleton.mp among
        exact ⟨next, left, larger⟩
      · cases among
  have inside : ∀ point, Asked range.base pages point → Free range point := by
    rintro point ⟨low, high⟩
    exact ⟨free, by simp only [Covers, extent, bytes]; omega⟩
  rw [taken]
  refine ⟨unspent_replace unspent inside ?_ ?_ ?_,
    fun point asked => unspent.clear range member point (inside point asked), ends, aligned⟩
  · rintro piece among point ⟨unused, covers⟩
    obtain ⟨low, high, fewer⟩ := rest piece among unused
    simp only [Covers, extent, bytes, low, high] at covers
    exact ⟨⟨free, by simp only [Covers, extent, bytes]; omega⟩, by simp only [Asked]; omega⟩
  · refine List.pairwise_cons.mpr ⟨fun _ _ _ both => absurd both.1.1 (by simp), ?_⟩
    split
    · exact List.pairwise_singleton _ _
    · exact List.Pairwise.nil
  · intro piece among unused
    obtain ⟨low, high, fewer⟩ := rest piece among unused
    rw [low, high]
    omega

theorem Unspent.weaken (less : ∀ point, fewer point → granted point) : Unspent limit fewer ranges :=
  ⟨unspent.apart, unspent.fits, fun range member point free spent =>
    unspent.clear range member point free (less point spent)⟩

theorem allocate_unspent (top : limit < 2 ^ 64) (pages : BitVec 64) :
    Unspent limit granted (allocateRange ranges pages).2 ∧ (allocateRange ranges pages).1.toNat ≤ limit ∧
      (allocateRange ranges pages).1.toNat % 4096 = 0 := by
  rcases allocate_grants unspent top pages with missed | ⟨taken, _, bound, aligned⟩
  · rw [missed]
    exact ⟨unspent, Nat.zero_le _, rfl⟩
  · exact ⟨taken.weaken fun _ => .inl, by omega, aligned⟩

end Grants

/-! ## Releases -/

/-- Every range, used or free, begins at a page and ends at `limit` or before. -/
def Fits (limit : Nat) (ranges : List AddressRange) : Prop :=
  ∀ range ∈ ranges, range.base.toNat % 4096 = 0 ∧ range.base.toNat + range.pages.toNat * 4096 ≤ limit

theorem fits_append {front back : List AddressRange} : Fits limit (front ++ back) ↔ Fits limit front ∧ Fits limit back :=
  List.forall_mem_append

theorem fits_cons {rest : List AddressRange} : Fits limit (range :: rest) ↔
    (range.base.toNat % 4096 = 0 ∧ range.base.toNat + range.pages.toNat * 4096 ≤ limit) ∧ Fits limit rest :=
  List.forall_mem_cons

theorem fits_replace {news : List AddressRange} (fits : Fits limit (pre ++ [range] ++ post))
    (pieces : range.base.toNat % 4096 = 0 → range.base.toNat + range.pages.toNat * 4096 ≤ limit → Fits limit news) :
    Fits limit (pre ++ news ++ post) := by
  simp only [fits_append, fits_cons] at fits ⊢
  exact ⟨⟨fits.1.1, pieces fits.1.2.1.1 fits.1.2.1.2⟩, fits.2⟩

theorem allocate_fits (fits : Fits limit ranges) (top : limit < 2 ^ 64) (pages : BitVec 64) :
    Fits limit (allocateRange ranges pages).2 := by
  rcases allocateRange_cases ranges pages with ⟨missed, _⟩ | ⟨pre, range, post, rfl, _, enough, taken⟩
  · rw [missed]
    exact fits
  · rw [taken]
    refine fits_replace fits fun aligned bound => ?_
    rw [le_def] at enough
    have ends : range.base.toNat + pages.toNat * 4096 ≤ limit :=
      Nat.le_trans (Nat.add_le_add_left (Nat.mul_le_mul_right 4096 enough) _) bound
    refine fits_cons.mpr ⟨⟨aligned, ends⟩, ?_⟩
    split
    · refine fits_cons.mpr ⟨?_, by simp [Fits]⟩
      dsimp only
      rw [pages_end (Nat.lt_of_le_of_lt ends top), toNat_sub_of_le (by rw [le_def]; exact enough)]
      omega
    · simp [Fits]

theorem use_fits {start size : BitVec 64} (fits : Fits limit ranges) (top : limit < 2 ^ 64)
    (page : start.toNat % 4096 = 0) (wraps : start.toNat + size.toNat * 4096 < 2 ^ 64) :
    Fits limit (useRange ranges start size).2 := by
  rcases useRange_cases ranges start size with ⟨missed, _⟩ | ⟨pre, range, post, rfl, contained, used⟩
  · rw [missed]
    exact fits
  · rw [used]
    refine fits_replace fits fun aligned bound => ?_
    obtain ⟨_, above, below⟩ := (contains_iff wraps (by omega)).mp contained
    have down : start.toNat / 4096 * 4096 = start.toNat := by omega
    rw [down] at above below
    obtain ⟨front, taken, last, shape, _, first, ⟨takenLow, takenHigh⟩, lastLow, lastHigh⟩ :=
      occupy_shape aligned page (by omega) above below
    rw [shape, fits_append, fits_cons, fits_cons]
    refine ⟨?_, ⟨takenLow, by omega⟩, ⟨by omega, by omega⟩, by simp [Fits]⟩
    rcases first with rfl | ⟨first, rfl, low, high⟩
    · simp [Fits]
    · exact fits_cons.mpr ⟨⟨by omega, by omega⟩, by simp [Fits]⟩

/-- Two free ranges that continue each other, as one. -/
theorem absorb_unspent {following : AddressRange} (unspent : Unspent limit granted (pre ++ range :: following :: post))
    (top : limit < 2 ^ 64) (free : range.used = false) (also : following.used = false)
    (meets : range.finish = following.base) :
    Unspent limit granted (pre ++ { range with pages := range.pages + following.pages } :: post) := by
  rw [show pre ++ range :: following :: post = pre ++ [range, following] ++ post by simp] at unspent
  obtain ⟨both, rest, cross⟩ := unspent_middle.mp unspent
  obtain ⟨aligned, bound⟩ := both.fits range (by simp) free
  obtain ⟨_, bound'⟩ := both.fits following (by simp) also
  have place : following.base.toNat = range.base.toNat + range.pages.toNat * 4096 := by
    rw [← meets]
    exact pages_end (by omega)
  have sum : (range.pages + following.pages).toNat = range.pages.toNat + following.pages.toNat := by
    rw [toNat_add]
    omega
  have either : ∀ point, Free { range with pages := range.pages + following.pages } point →
      ∃ old ∈ [range, following], Free old point := by
    rintro point ⟨_, covers⟩
    simp only [Covers, extent, bytes, sum] at covers
    simp only [List.mem_cons, List.not_mem_nil, or_false, exists_eq_or_imp, exists_eq_left, Free, Covers, extent, bytes,
      free, also, true_and]
    omega
  rw [← List.singleton_append, ← List.append_assoc]
  refine unspent_middle.mpr ⟨unspent_singleton.mpr ⟨fun _ => ⟨aligned, ?_⟩, fun point here => ?_⟩, rest, ?_⟩
  · dsimp only
    rwa [sum, Nat.add_mul, ← Nat.add_assoc, ← place]
  · obtain ⟨old, member, here⟩ := either point here
    exact both.clear old member point here
  · rintro piece new other member point ⟨here, there⟩
    cases List.mem_singleton.mp new
    obtain ⟨old, listed, here⟩ := either point here
    exact cross old listed other member point ⟨here, there⟩

theorem mergeFrom_unspent (pre : List AddressRange) {rest : List AddressRange} (top : limit < 2 ^ 64)
    (unspent : Unspent limit granted (pre ++ range :: rest)) (fits : Fits limit (pre ++ range :: rest)) :
    Unspent limit granted (pre ++ mergeFrom range rest) ∧ Fits limit (pre ++ mergeFrom range rest) := by
  induction rest generalizing pre range with
  | nil => exact ⟨unspent, fits⟩
  | cons following rest ih =>
    rw [mergeFrom]
    split
    · rename_i joins
      simp only [Bool.and_eq_true, Bool.not_eq_true', beq_iff_eq] at joins
      obtain ⟨⟨free, also⟩, meets⟩ := joins
      have joined := absorb_unspent unspent top free also meets
      refine ih pre joined (fits_append.mpr ⟨(fits_append.mp fits).1, fits_cons.mpr ⟨?_, ?_⟩⟩)
      · exact joined.fits _ (by simp) free
      · exact (fits_cons.mp (fits_cons.mp (fits_append.mp fits).2).2).2
    · have := ih (pre ++ [range]) (by simpa using unspent) (by simpa using fits)
      simpa using this

/-- A release of a range that shares no byte with a free range or with what stays granted. -/
theorem release_unspent {fewer : Nat → Prop} (unspent : Unspent limit granted ranges) (fits : Fits limit ranges)
    (top : limit < 2 ^ 64) (less : ∀ point, fewer point → granted point)
    (alone : ∀ range ∈ ranges, range.used = true → range.base = base →
      (∀ other ∈ ranges, ∀ point, Free other point → ¬ Covers (extent range) point) ∧
        ∀ point, fewer point → ¬ Covers (extent range) point) :
    Unspent limit fewer (freeRange ranges base) ∧ Fits limit (freeRange ranges base) := by
  have unspent := unspent.weaken less
  rw [freeRange]
  rcases releaseRange_cases ranges base with none | ⟨pre, range, post, rfl, used, place, released⟩
  · rw [none]
    exact ⟨unspent, fits⟩
  obtain ⟨others, spared⟩ := alone range (by simp) used place
  have freed : Unspent limit fewer (pre ++ { range with used := false } :: post) := by
    rw [← List.singleton_append, ← List.append_assoc]
    refine unspent_middle.mpr ⟨unspent_singleton.mpr ⟨fun _ => fits range (by simp), ?_⟩,
      (unspent_middle.mp unspent).2.1, ?_⟩
    · exact fun point free spent => spared point spent free.2
    · intro piece new other member point both
      cases List.mem_singleton.mp new
      refine others other ?_ point both.2 both.1.2
      rw [List.append_assoc, List.mem_append]
      exact (List.mem_append.mp member).imp_right (List.mem_cons_of_mem _)
  have all : Fits limit (pre ++ { range with used := false } :: post) := by
    simp only [fits_append, fits_cons] at fits ⊢
    exact ⟨fits.1.1, fits.1.2.1, fits.2⟩
  rw [released, List.append_assoc, List.singleton_append]
  cases pre with
  | nil => exact mergeFrom_unspent [] top freed all
  | cons first rest => exact mergeFrom_unspent [] top freed all

/-! ## Ranges that tile -/

/-- A range that was given is a stretch of free points. -/
theorem allocated_free (tiled : Tiled low high ranges) (given : (allocateRange ranges pages).1 = base) (met : base ≠ 0) :
    low ≤ base.toNat ∧ base.toNat + pages.toNat * 4096 ≤ high ∧ base.toNat % 4096 = 0 ∧
      ∀ point, Asked base pages point → ∃ range ∈ ranges, Free range point := by
  rcases allocateRange_cases ranges pages with ⟨missed, _⟩ | ⟨pre, range, post, rfl, free, enough, taken⟩
  · rw [missed] at given
    exact absurd given.symm met
  · rw [taken] at given
    obtain rfl : range.base = base := given
    have member : range ∈ pre ++ [range] ++ post := by simp
    have aligned := tiled.aligned range member
    obtain ⟨above, below⟩ := tiled_inside tiled member
    have fits : pages.toNat * 4096 ≤ range.pages.toNat * 4096 := Nat.mul_le_mul_right _ enough
    refine ⟨above, Nat.le_trans (Nat.add_le_add_left fits _) below, aligned, ?_⟩
    rintro point ⟨first, last⟩
    exact ⟨range, member, free, first, Nat.lt_of_lt_of_le last (Nat.add_le_add_left fits _)⟩

theorem tiled_base (tiled : Tiled low high ranges) (first : range ∈ ranges) (second : other ∈ ranges)
    (same : range.base = other.base) : range = other := by
  have starts : ∀ piece ∈ ranges, Covers (extent piece) piece.base.toNat := by
    intro piece member
    have some := tiled.filled piece member
    simp only [Covers, extent, bytes]
    omega
  exact tiles_unique tiled.tiles first second (starts range first) (same ▸ starts other second)

/-- A range taken and given back leaves no point free that was not. -/
theorem returned_free (tiled : Tiled low high ranges) (pos : pages ≠ 0)
    (given : allocateRange ranges pages = (base, after)) (met : base ≠ 0) : Tiled low high (freeRange after base) ∧
      ∀ range ∈ freeRange after base, ∀ point, Free range point → ∃ old ∈ ranges, Free old point := by
  have taken : Tiled low high after ∧ ⟨base, pages, true⟩ ∈ after := by
    rcases allocateRange_cases ranges pages with ⟨missed, _⟩ | ⟨pre, range, post, rfl, free, enough, found⟩
    · rw [missed] at given
      exact absurd (congrArg Prod.fst given).symm met
    · rw [found] at given
      obtain ⟨rfl, rfl⟩ := Prod.mk.inj given
      exact ⟨take_tiled tiled pos enough, by simp [take]⟩
  obtain ⟨kept, member⟩ := taken
  have unspent : Unspent high (fun point => ¬ ∃ old ∈ ranges, Free old point) ranges := by
    refine ⟨?_, fun range inside _ => ⟨tiled.aligned range inside, (tiled_inside tiled inside).2⟩, ?_⟩
    · exact (tiles_separate tiled.tiles).imp fun apart point both => apart point ⟨both.1.2, both.2.2⟩
    · exact fun range inside point free none => none ⟨range, inside, free⟩
  have fits : Fits high after := fun range inside => ⟨kept.aligned range inside, (tiled_inside kept inside).2⟩
  have sound : Sound low high ⟨after, []⟩ := ⟨kept, List.nil_subperm⟩
  refine ⟨(release_sound sound).tiled, ?_⟩
  rcases allocate_grants unspent tiled.top pages with missed | ⟨granted, fresh, _, _⟩
  · rw [missed] at given
    exact absurd (congrArg Prod.fst given).symm met
  rw [given] at granted fresh
  have freed : Unspent high (fun point => ¬ ∃ old ∈ ranges, Free old point) (freeRange after base) := by
    refine (release_unspent granted fits tiled.top (fun _ => .inl) ?_).1
    intro range inside used place
    obtain rfl : range = ⟨base, pages, true⟩ := tiled_base kept inside member place
    refine ⟨?_, fun point none here => fresh point here none⟩
    intro other listed point free here
    have same := tiles_unique kept.tiles listed inside free.2 here
    rw [same] at free
    exact absurd free.1 (by simp)
  exact fun range inside point free => not_not.mp (freed.clear range inside point free)

end Requests

end LunaOS.RangeGrants
