import LunaOS.Coalescing
import LunaOS.RangePartition

/-! The range allocator without `useRange`. The used headers are exactly what was
granted and not freed, no two unused ones stand side by side, and once everything
is freed the header that `addRange` made is alone again. -/
namespace LunaOS.RangeRestoration
open Coalescing PageArithmetic RangeAllocator RangePartition Tiling

/-- `allocateRange`, with the range recorded that it took. A range at address 0 is
taken too, though the result then reads as `NULL`. -/
def grant (alloc : Allocator) (pages : BitVec 64) : Allocator :=
  let (base, ranges) := allocateRange alloc.ranges pages
  ⟨ranges, if ∃ range ∈ alloc.ranges, range.used = false ∧ pages ≤ range.pages then
    (base, pages) :: alloc.live else alloc.live⟩

/-- `freeRange`, after which nothing is recorded at `base`. -/
def revoke (alloc : Allocator) (base : BitVec 64) : Allocator := serve alloc (.freeRange base)

/-- The states after one `addRange` and any calls but `useRange`. -/
inductive Served (start finish : BitVec 64) : Allocator → Prop
  | addRange : Served start finish (boot start finish)
  | allocateRange {alloc : Allocator} (pages : BitVec 64) : Served start finish alloc → pages ≠ 0 →
      Served start finish (grant alloc pages)
  | freeRange {alloc : Allocator} (base : BitVec 64) : Served start finish alloc →
      Served start finish (revoke alloc base)

/-! ## Merging -/

section Merging
variable {low high : Nat} {pre rest post ranges : List AddressRange} {range following : AddressRange}

theorem mergeFrom_front (range : AddressRange) (rest : List AddressRange) : ∃ front tail,
    mergeFrom range rest = front :: tail ∧ front.used = range.used := by
  induction rest generalizing range with
  | nil => exact ⟨range, [], rfl, rfl⟩
  | cons following rest ih =>
    rw [mergeFrom]
    split
    · exact ih _
    · exact ⟨range, _, rfl, rfl⟩

/-- In a tiling the sum that `mergeAll` compares meets the base of the next range. -/
theorem tiled_continues (tiled : Tiled low high (pre ++ range :: following :: rest)) :
    range.finish = following.base := by
  have inside := tiled_inside tiled (show range ∈ _ by simp)
  have top := tiled.top
  obtain ⟨_, _, here, next, _⟩ := tiles_append.mp tiled.tiles
  have length := pages_bytes (show range.pages.toNat * 4096 < 2 ^ 64 by omega)
  refine BitVec.eq_of_toNat_eq ?_
  rw [AddressRange.finish, BitVec.toNat_add, length]
  simp only [extent, bytes] at here next
  omega

theorem mergeFrom_settled (pre : List AddressRange) (tiled : Tiled low high (pre ++ range :: rest)) :
    Settled AddressRange.used (mergeFrom range rest) := by
  induction rest generalizing pre range with
  | nil => exact .singleton range
  | cons following rest ih =>
    rw [mergeFrom]
    split
    · exact ih pre (by simpa using absorb_tiled pre rest (by simpa using tiled))
    · rename_i apart
      have settled := ih (pre ++ [range]) (by simpa using tiled)
      obtain ⟨front, tail, shape, same⟩ := mergeFrom_front following rest
      rw [shape] at settled ⊢
      refine settled_cons settled same ?_
      simpa [tiled_continues tiled] using apart

theorem mergeAll_settled (tiled : Tiled low high ranges) : Settled AddressRange.used (mergeAll ranges) := by
  cases ranges with
  | nil => exact .nil
  | cons range rest => exact mergeFrom_settled [] tiled

theorem take_settled {pages : BitVec 64} (settled : Settled AddressRange.used (pre ++ [range] ++ post))
    (free : range.used = false) : Settled AddressRange.used (pre ++ take range pages ++ post) := by
  refine settled_carve settled free rfl ?_
  split
  · exact .cons_cons (.inl rfl) (.singleton _)
  · exact .singleton _

/-! ## Bases -/

theorem mem_handed {allocation : BitVec 64 × BitVec 64} : allocation ∈ handed ranges ↔
    ∃ range ∈ ranges, range.used = true ∧ (range.base, range.pages) = allocation := by
  simp [handed, and_assoc]

/-- No other used range begins where one does. -/
theorem handed_base (tiled : Tiled low high (pre ++ [range] ++ post)) :
    ∀ allocation ∈ handed (pre ++ [{ range with used := false }] ++ post), allocation.1 ≠ range.base := by
  have sorted := tiled_sorted tiled
  simp only [List.append_assoc, List.singleton_append, List.pairwise_append, List.pairwise_cons] at sorted
  obtain ⟨_, ⟨after, _⟩, before⟩ := sorted
  intro allocation member
  obtain ⟨other, among, used, rfl⟩ := mem_handed.mp member
  simp only [List.append_assoc, List.singleton_append, List.mem_append, List.mem_cons] at among
  rcases among with early | rfl | late
  · exact BitVec.ne_of_lt (before other early range (by simp))
  · cases used
  · exact (BitVec.ne_of_lt (after other late)).symm

/-- The first range at a base is the only one. -/
theorem releaseRange_found (sorted : ranges.Pairwise fun first second => first.base < second.base)
    (member : range ∈ ranges) (used : range.used = true) : releaseRange ranges range.base ≠ none := by
  induction ranges with
  | nil => cases member
  | cons head rest ih =>
    obtain ⟨below, later⟩ := List.pairwise_cons.mp sorted
    rw [releaseRange]
    rcases List.mem_cons.mp member with rfl | inside
    · simp [used]
    · rw [if_neg (BitVec.ne_of_lt (below range inside)), Ne, Option.map_eq_none_iff]
      exact ih later inside

end Merging

/-! ## Runs -/

/-- The headers tile the range, the used ones are what is recorded, and unused
neighbours are merged. -/
structure Restorable (low high : Nat) (alloc : Allocator) : Prop where
  tiled : Tiled low high alloc.ranges
  held : alloc.live.Perm (handed alloc.ranges)
  settled : Settled AddressRange.used alloc.ranges

section Runs
variable {low high : Nat} {alloc : Allocator} {start finish : BitVec 64}

/-- A call that finds a range records it, and any other call does nothing. -/
theorem grant_cases (alloc : Allocator) (pages : BitVec 64) :
    (allocateRange alloc.ranges pages = (0, alloc.ranges) ∧ grant alloc pages = alloc) ∨
      ∃ pre range post, alloc.ranges = pre ++ [range] ++ post ∧ range.used = false ∧ pages ≤ range.pages ∧
        allocateRange alloc.ranges pages = (range.base, pre ++ take range pages ++ post) ∧
        grant alloc pages = ⟨pre ++ take range pages ++ post, (range.base, pages) :: alloc.live⟩ := by
  rcases allocateRange_cases alloc.ranges pages with
    ⟨missed, none⟩ | ⟨pre, range, post, shape, free, enough, taken⟩
  · have nothing : ¬ ∃ range ∈ alloc.ranges, range.used = false ∧ pages ≤ range.pages := by
      rintro ⟨range, member, fits⟩
      exact none range member fits
    exact .inl ⟨missed, by simp only [grant, missed, if_neg nothing]⟩
  · have found : ∃ other ∈ alloc.ranges, other.used = false ∧ pages ≤ other.pages :=
      ⟨range, by rw [shape]; simp, free, enough⟩
    exact .inr ⟨pre, range, post, shape, free, enough, taken, by simp only [grant, taken, if_pos found]⟩

theorem grant_restorable (restorable : Restorable low high alloc) (pos : pages ≠ 0) :
    Restorable low high (grant alloc pages) := by
  rcases grant_cases alloc pages with ⟨_, same⟩ | ⟨pre, range, post, shape, free, enough, _, granted⟩
  · rw [same]
    exact restorable
  · obtain ⟨tiled, held, settled⟩ := restorable
    rw [shape] at tiled held settled
    rw [granted]
    exact ⟨take_tiled tiled pos enough, (held.cons _).trans (handed_take pages free).symm, take_settled settled free⟩

/-- A base that is not recorded is not the base of a used range. -/
theorem release_missed (restorable : Restorable low high alloc) (absent : ∀ pages, (base, pages) ∉ alloc.live) :
    releaseRange alloc.ranges base = none := by
  rcases releaseRange_cases alloc.ranges base with none | ⟨pre, range, post, shape, used, rfl, _⟩
  · exact none
  · have member : (range.base, range.pages) ∈ handed alloc.ranges :=
      mem_handed.mpr ⟨range, by rw [shape]; simp, used, rfl⟩
    exact absurd (restorable.held.mem_iff.mpr member) (absent range.pages)

theorem revoke_restorable (restorable : Restorable low high alloc) (base : BitVec 64) :
    Restorable low high (revoke alloc base) := by
  obtain ⟨ranges, live⟩ := alloc
  obtain ⟨tiled, held, settled⟩ := restorable
  rcases releaseRange_cases ranges base with none | ⟨pre, range, post, rfl, used, rfl, released⟩
  · simp only [revoke, serve, freeRange, none]
    refine ⟨tiled, ?_, settled⟩
    rw [List.filter_eq_self.mpr ?_]
    · exact held
    · intro allocation member
      obtain ⟨range, among, used, rfl⟩ := mem_handed.mp (held.mem_iff.mp member)
      refine decide_eq_true ?_
      rintro rfl
      exact releaseRange_found (tiled_sorted tiled) among used none
  · simp only [revoke, serve, freeRange, released]
    have unmarked := release_tiled tiled
    refine ⟨mergeAll_tiled unmarked, ?_, mergeAll_settled unmarked⟩
    rw [handed_mergeAll]
    have others : (handed (pre ++ [{ range with used := false }] ++ post)).filter
        (fun allocation => allocation.1 ≠ range.base) = handed (pre ++ [{ range with used := false }] ++ post) :=
      List.filter_eq_self.mpr fun allocation member => decide_eq_true (handed_base tiled allocation member)
    have kept := (held.trans (handed_release used)).filter
      (fun allocation : BitVec 64 × BitVec 64 => allocation.1 ≠ range.base)
    rwa [List.filter_cons_of_neg (by simp), others] at kept

theorem served_restorable (first : start.toNat % 4096 = 0) (last : finish.toNat % 4096 = 0)
    (order : start < finish) (served : Served start finish alloc) : Restorable start.toNat finish.toNat alloc := by
  induction served with
  | addRange =>
    refine ⟨(boot_sound first last order).tiled, ?_, ?_⟩
    · rw [boot_ranges]
      exact .nil
    · rw [boot_ranges]
      exact .singleton _
  | allocateRange pages _ pos ih => exact grant_restorable ih pos
  | freeRange base _ ih => exact revoke_restorable ih base

/-- A range without a page stays as it was added. -/
theorem served_empty (served : Served start start alloc) : alloc = ⟨[⟨start, 0, false⟩], []⟩ := by
  induction served with
  | addRange => simp [boot, addRange, mergeAll, mergeFrom, pageSize]
  | allocateRange pages _ pos ih =>
    subst ih
    have short : pages ≠ 0#64 := pos
    simp [grant, allocateRange, short]
  | freeRange base _ ih =>
    subst ih
    exact serve_empty trivial

/-- What is granted is apart from everything recorded. -/
theorem granted_apart (restorable : Restorable low high alloc)
    (ran : allocateRange alloc.ranges pages = (base, after)) (present : base ≠ 0)
    (member : allocation ∈ alloc.live) : Separate (bytes (base, pages)) (bytes allocation) := by
  obtain ⟨used, among, busy, rfl⟩ := mem_handed.mp (restorable.held.mem_iff.mp member)
  rcases allocateRange_cases alloc.ranges pages with ⟨missed, _⟩ | ⟨pre, range, post, shape, free, enough, taken⟩
  · rw [missed] at ran
    exact absurd (Prod.mk.inj ran).1.symm present
  · rw [taken] at ran
    obtain ⟨rfl, _⟩ := Prod.mk.inj ran
    rintro point ⟨here, there⟩
    have inside : Covers (extent range) point := by
      have within : pages.toNat ≤ range.pages.toNat := enough
      exact ⟨here.1, Nat.lt_of_lt_of_le here.2 (Nat.add_le_add_left (Nat.mul_le_mul_right _ within) _)⟩
    have same := tiles_unique restorable.tiled.tiles (by rw [shape]; simp) among inside there
    rw [same, busy] at free
    cases free

/-- Everything freed, one header covers the range. -/
theorem restored_single {start finish : BitVec 64} (restorable : Restorable start.toNat finish.toNat alloc)
    (order : start < finish) (idle : alloc.live = []) :
    alloc.ranges = [⟨start, (finish - start) / pageSize, false⟩] := by
  obtain ⟨ranges, live⟩ := alloc
  obtain ⟨tiled, held, settled⟩ := restorable
  subst idle
  have below : start.toNat < finish.toNat := order
  have unused : ∀ range ∈ ranges, range.used = false := by
    intro range member
    by_contra busy
    have used : (range.base, range.pages) ∈ handed ranges :=
      mem_handed.mpr ⟨range, member, by simpa using busy, rfl⟩
    exact absurd (held.mem_iff.mpr used) (List.not_mem_nil)
  have nonempty : ranges ≠ [] := by
    rintro rfl
    exact absurd (show start.toNat = finish.toNat from tiled.tiles) (Nat.ne_of_lt below)
  obtain ⟨range, rfl⟩ := settled_single settled unused nonempty
  obtain ⟨begins, ends⟩ := tiles_singleton.mp tiled.tiles
  obtain ⟨base, pages, used⟩ := range
  have free : used = false := unused ⟨base, pages, used⟩ (by simp)
  simp only [extent, bytes] at begins ends
  have count : pages = (finish - start) / pageSize := by
    refine BitVec.eq_of_toNat_eq ?_
    rw [BitVec.toNat_udiv, BitVec.toNat_sub_of_le (BitVec.le_of_lt order), pageSize_toNat]
    omega
  rw [free, count, BitVec.eq_of_toNat_eq begins]

/-- Above address 0 the ranges recorded are those of the results that are not `NULL`. -/
theorem grant_serve (restorable : Restorable low high alloc) (present : 0 < low) (pages : BitVec 64) :
    grant alloc pages = serve alloc (.allocateRange pages) := by
  rcases grant_cases alloc pages with ⟨missed, same⟩ | ⟨pre, range, post, shape, _, _, taken, granted⟩
  · simp only [same, serve, missed, if_true]
  · have nonzero : range.base ≠ 0 := by
      have inside := tiled_inside restorable.tiled (show range ∈ alloc.ranges by rw [shape]; simp)
      intro null
      rw [null] at inside
      exact absurd inside.1 (Nat.not_le.mpr present)
    simp only [granted, serve, taken, if_neg nonzero]

end Runs

/-- In every state a run reaches, what the next call grants is apart from what is
allocated, freeing any other base changes nothing, and with nothing allocated the list
is the one `addRange` made. What is allocated are the results that are not `NULL`
unless the range begins at address 0. -/
theorem range_restored (start finish : BitVec 64) (first : start.toNat % 4096 = 0)
    (last : finish.toNat % 4096 = 0) (order : start ≤ finish) (alloc : Allocator)
    (served : Served start finish alloc) :
    (∀ pages base after, pages ≠ 0 → allocateRange alloc.ranges pages = (base, after) → base ≠ 0 →
      ∀ allocation ∈ alloc.live, Separate (bytes (base, pages)) (bytes allocation)) ∧
    (∀ base, (∀ pages, (base, pages) ∉ alloc.live) →
      freeRange alloc.ranges base = alloc.ranges ∧ revoke alloc base = alloc) ∧
    (alloc.live = [] → alloc.ranges = addRange [] start finish) ∧
    addRange [] start finish = [⟨start, (finish - start) / pageSize, false⟩] ∧
    (start ≠ 0 → ∀ pages, pages ≠ 0 → grant alloc pages = serve alloc (.allocateRange pages)) := by
  by_cases empty : start = finish
  · subst empty
    obtain rfl := served_empty served
    refine ⟨fun _ _ _ _ _ _ _ member => absurd member List.not_mem_nil, fun base _ => ?_, fun _ => ?_, rfl,
      fun _ pages pos => ?_⟩
    · have same := served_empty (.freeRange base served)
      exact ⟨congrArg Allocator.ranges same, same⟩
    · exact (congrArg Allocator.ranges (served_empty .addRange)).symm
    · exact (served_empty (.allocateRange pages served pos)).trans
        (serve_empty (show Admissible (.allocateRange pages) from pos)).symm
  · have below : start < finish := by bv_omega
    have restorable := served_restorable first last below served
    refine ⟨fun pages base after _ ran present allocation member => granted_apart restorable ran present member,
      ?_, restored_single restorable below, rfl, ?_⟩
    · intro base absent
      have kept : freeRange alloc.ranges base = alloc.ranges := by
        rw [freeRange, release_missed restorable absent]
      refine ⟨kept, ?_⟩
      have others : alloc.live.filter (fun allocation => allocation.1 ≠ base) = alloc.live := by
        refine List.filter_eq_self.mpr fun allocation member => decide_eq_true ?_
        rintro rfl
        exact absent allocation.2 member
      simp only [revoke, serve, kept, others]
    · intro nonzero pages _
      have present : 0 < start.toNat := by bv_omega
      exact grant_serve restorable present pages

/-- The kernel's range after three grants that are freed in another order. -/
theorem range_restored_kernel : ∃ alloc, Served 0xFFFF800150100000 0xFFFF8100A0100000 alloc ∧ alloc.live = [] ∧
      alloc.ranges = [⟨0xFFFF800150100000, 0xFF50000, false⟩] := by
  have served : Served 0xFFFF800150100000 0xFFFF8100A0100000 _ :=
    .freeRange 0xFFFF800150100000 (.freeRange 0xFFFF800150103000 (.freeRange 0xFFFF800150101000
      (.allocateRange 4 (.allocateRange 2 (.allocateRange 1 .addRange (by decide)) (by decide)) (by decide))))
  have restored := (range_restored _ _ (by decide) (by decide) (by decide) _ served).2.2.1 (by decide +kernel)
  exact ⟨_, served, by decide +kernel, restored.trans (by decide +kernel)⟩

end LunaOS.RangeRestoration
