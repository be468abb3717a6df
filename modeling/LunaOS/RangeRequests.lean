import LunaOS.RangePartition
import Mathlib.Algebra.GroupWithZero.Nat
import Mathlib.Data.BitVec
import Mathlib.Data.List.TakeWhile

/-! What the address range allocator promises its callers. `useRange` compares
strictly and in the machine's arithmetic, so it refuses a request that ends
where its range ends and can grant one that wraps. `addRange` searches for the
last header with a higher base: the list descends, and a range above the head
takes the head's place. -/
namespace LunaOS.RangeRequests
open PageArithmetic RangeAllocator RangePartition Tiling
open BitVec hiding and_assoc or_comm

/-! ## Requests at a fixed address -/

/-- Every range ends inside the address space and no two have a page in common. -/
structure WellFormed (ranges : List AddressRange) : Prop where
  ends : ∀ range ∈ ranges, range.base.toNat + range.pages.toNat * 4096 < 2 ^ 64
  separate : ranges.Pairwise fun first second => Separate (extent first) (extent second)

/-- The bytes asked for, without the machine's wrap-around. -/
def requested (start size : BitVec 64) : Nat × Nat :=
  ((alignPageDown start).toNat, size.toNat * 4096)

/-- The request lies in the range, up to and including its end, and the range is free. -/
def Holds (range : AddressRange) (start size : BitVec 64) : Prop :=
  range.used = false ∧ range.base.toNat ≤ (requested start size).1 ∧
    (requested start size).1 + (requested start size).2 ≤ range.base.toNat + range.pages.toNat * 4096

instance : Decidable (Holds range start size) := inferInstanceAs (Decidable (_ ∧ _ ∧ _))

/-- The test of `useRange` compares with the end of the request modulo `2^64`. -/
theorem contains_wrapped {range : AddressRange} (start size : BitVec 64)
    (ends : range.base.toNat + range.pages.toNat * 4096 < 2 ^ 64) :
    Contains range start size = true ↔ range.used = false ∧ range.base.toNat ≤ (requested start size).1 ∧
      ((requested start size).1 + (requested start size).2) % 2 ^ 64 <
        range.base.toNat + range.pages.toNat * 4096 := by
  have request : (alignPageDown start + size * pageSize).toNat =
      ((requested start size).1 + (requested start size).2) % 2 ^ 64 := by
    simp [requested, toNat_add, toNat_mul]
  have finish : range.finish.toNat = range.base.toNat + range.pages.toNat * 4096 := pages_end ends
  simp [Contains, le_def, lt_def, request, finish, and_assoc, requested]

theorem use_granted_iff (ranges : List AddressRange) (start size : BitVec 64) :
    (useRange ranges start size).1 = true ↔ ∃ range ∈ ranges, Contains range start size = true := by
  rcases useRange_cases ranges start size with ⟨missed, none⟩ | ⟨pre, range, post, rfl, found, used⟩
  · rw [missed]
    refine ⟨fun granted => absurd granted (by simp), ?_⟩
    rintro ⟨range, member, found⟩
    rw [none range member] at found
    contradiction
  · rw [used]
    exact ⟨fun _ => ⟨range, by simp, found⟩, fun _ => rfl⟩

/-- Two separate ranges do not both hold a request for at least one page. -/
theorem holds_unique {ranges : List AddressRange} {start size : BitVec 64}
    (separate : ranges.Pairwise fun first second => Separate (extent first) (extent second))
    (pos : size ≠ 0) {first second : AddressRange} (left : first ∈ ranges)
    (right : second ∈ ranges) (one : Holds first start size) (other : Holds second start size) : first = second := by
  have some : 0 < size.toNat := by bv_omega
  by_contra differ
  have : Std.Symm fun first second => Separate (extent first) (extent second) :=
    ⟨fun _ _ => Separate.symm⟩
  have apart := separate.forall left right differ
  obtain ⟨_, begins, ends⟩ := one
  obtain ⟨_, begins', ends'⟩ := other
  simp only [requested] at *
  apply apart (alignPageDown start).toNat
  simp only [Covers, extent, bytes]
  omega

/-- `useRange` grants exactly the requests that lie in one free range when the
request neither ends where that range ends nor, having wrapped around, appears
to end below a free range that begins below it. A refusal changes nothing. -/
theorem use_exact_iff (ranges : List AddressRange) (formed : WellFormed ranges)
    (start size : BitVec 64) (pos : size ≠ 0) :
    ((useRange ranges start size).1 = false → (useRange ranges start size).2 = ranges) ∧
    (((useRange ranges start size).1 = true ↔ ∃ range ∈ ranges, Holds range start size) ↔
      if (requested start size).1 + (requested start size).2 < 2 ^ 64 then ∀ range ∈ ranges, Holds range start size →
          (requested start size).1 + (requested start size).2 ≠ range.base.toNat + range.pages.toNat * 4096 else
        ∀ range ∈ ranges, range.used = false → range.base.toNat ≤ (requested start size).1 →
          range.base.toNat + range.pages.toNat * 4096 ≤
            ((requested start size).1 + (requested start size).2) % 2 ^ 64) := by
  refine ⟨useRange_missed, ?_⟩
  rw [use_granted_iff]
  have test : ∀ range ∈ ranges, _ := fun range member =>
    contains_wrapped start size (formed.ends range member)
  split
  · rename_i fits
    rw [Nat.mod_eq_of_lt fits] at test
    constructor
    · rintro exact range member holds touches
      obtain ⟨other, member', found⟩ := exact.mpr ⟨range, member, holds⟩
      obtain ⟨free, begins, ends⟩ := (test other member').mp found
      obtain rfl := holds_unique formed.separate pos member member' holds
        ⟨free, begins, by omega⟩
      omega
    · intro inside
      constructor
      · rintro ⟨range, member, found⟩
        obtain ⟨free, begins, ends⟩ := (test range member).mp found
        exact ⟨range, member, free, begins, by omega⟩
      · rintro ⟨range, member, holds⟩
        have later := inside range member holds
        obtain ⟨free, begins, ends⟩ := holds
        exact ⟨range, member, (test range member).mpr ⟨free, begins, by omega⟩⟩
  · rename_i wraps
    have outside : ¬ ∃ range ∈ ranges, Holds range start size := by
      rintro ⟨range, member, -, -, ends⟩
      have below := formed.ends range member
      omega
    rw [iff_false_right outside]
    constructor
    · intro refused range member free begins
      by_contra ends
      exact refused ⟨range, member, (test range member).mpr ⟨free, begins, by omega⟩⟩
    · rintro above ⟨range, member, found⟩
      obtain ⟨free, begins, ends⟩ := (test range member).mp found
      have := above range member free begins
      omega

/-- Four free pages from `0x1000` on. -/
def fourPages : AddressRange := ⟨0x1000, 4, false⟩

theorem fourPages_formed : WellFormed [fourPages] := ⟨by decide, by simp⟩

theorem use_exact_iff_second_page :
    (useRange [fourPages] 0x2000 2).1 = true ↔ ∃ range ∈ [fourPages], Holds range 0x2000 2 :=
  (use_exact_iff [fourPages] fourPages_formed 0x2000 2 (by decide)).2.mpr (by decide)

/-- The last three of four free pages are refused, and a request for `2^52`
pages, all of memory, is granted. -/
theorem use_range_inexact : WellFormed [fourPages] ∧
    Holds fourPages 0x2000 3 ∧ (useRange [fourPages] 0x2000 3).1 = false ∧
    ¬ Holds fourPages 0x2000 (2 ^ 52) ∧ (useRange [fourPages] 0x2000 (2 ^ 52)).1 = true :=
  ⟨fourPages_formed, by decide, by decide, by decide, by decide⟩

/-! ## Sequences of added ranges -/

/-- The calls of `addRange` on an empty allocator, each with a start and an end. -/
def addAll (added : List (BitVec 64 × BitVec 64)) : List AddressRange :=
  added.foldl (fun ranges range => addRange ranges range.1 range.2) []

def region (range : BitVec 64 × BitVec 64) : Nat × Nat :=
  (range.1.toNat, range.2.toNat - range.1.toNat)

/-- The header `addRange` makes. -/
def header (range : BitVec 64 × BitVec 64) : AddressRange :=
  ⟨range.1, (range.2 - range.1) / pageSize, false⟩

/-- The ranges are page-aligned, hold at least one page, do not wrap around and
have no page in common. -/
structure Proper (added : List (BitVec 64 × BitVec 64)) : Prop where
  aligned : ∀ range ∈ added, range.1.toNat % 4096 = 0 ∧ range.2.toNat % 4096 = 0
  filled : ∀ range ∈ added, range.1.toNat < range.2.toNat
  separate : added.Pairwise fun first second => Separate (region first) (region second)

/-- One of the two regions ends where the other begins. -/
def Touch (first second : Nat × Nat) : Prop :=
  first.1 + first.2 = second.1 ∨ second.1 + second.2 = first.1

instance : Decidable (Touch first second) := inferInstanceAs (Decidable (_ ∨ _))

/-- The list has every page of every added range exactly once and nothing else,
its neighbours do not touch, and its free pages are those added. -/
structure Keeps (added : List (BitVec 64 × BitVec 64)) (ranges : List AddressRange) : Prop where
  once : ∀ point, ranges.countP (fun range => Covers (extent range) point) =
    added.countP (fun range => Covers (region range) point)
  gaps : ranges.IsChain fun first second => ¬ Touch (extent first) (extent second)
  total : ((ranges.filter fun range => !range.used).map fun range => range.pages.toNat).sum =
    (added.map fun range => (range.2.toNat - range.1.toNat) / 4096).sum

/-- The first range added lies above all the others. -/
def FirstHighest : List (BitVec 64 × BitVec 64) → Prop
  | [] => True
  | first :: rest => ∀ range ∈ rest, range.1.toNat < first.1.toNat

def Descends (ranges : List AddressRange) : Prop :=
  ranges.Pairwise fun first second => second.base.toNat < first.base.toNat

theorem header_extent {range : BitVec 64 × BitVec 64} (aligned : range.1.toNat % 4096 = 0 ∧ range.2.toNat % 4096 = 0)
    (filled : range.1.toNat < range.2.toNat) : extent (header range) = region range := by
  have size : (range.2 - range.1).toNat = range.2.toNat - range.1.toNat :=
    toNat_sub_of_le (by rw [le_def]; omega)
  simp only [extent, bytes, header, region, toNat_udiv, size, pageSize_toNat, Prod.mk.injEq, true_and]
  omega

/-- Where a list is cut by the first entry that fails a test. -/
theorem span_halves (test : α → Bool) (entries : List α) :
    ∃ passed rest, entries.span test = (passed, rest) ∧ entries = passed ++ rest ∧
      (∀ entry ∈ passed, test entry = true) ∧ ∀ entry, rest.head? = some entry → test entry = false := by
  refine ⟨entries.takeWhile test, entries.dropWhile test,
    List.span_eq_takeWhile_dropWhile test entries, List.takeWhile_append_dropWhile.symm, fun _ => List.mem_takeWhile_imp, ?_⟩
  intro entry first
  have := List.head?_dropWhile_not test entries
  simpa [first] using this

/-- In a descending list a range below the head goes to its place, and one above
the head replaces it. -/
theorem insertRange_cases {added head : AddressRange} {rest : List AddressRange} (descends : Descends (head :: rest))
    (fresh : ∀ range ∈ head :: rest, range.base.toNat ≠ added.base.toNat) :
    (added.base.toNat < head.base.toNat ∧ ∃ above below, head :: rest = above ++ below ∧
      above ≠ [] ∧ insertRange added head rest = above ++ added :: below ∧ Descends (above ++ added :: below)) ∨
    (head.base.toNat < added.base.toNat ∧ insertRange added head rest = added :: rest ∧
      Descends (added :: rest)) := by
  obtain ⟨lower, upper, halves, whole, passed, stopped⟩ :=
    span_halves (fun curr : AddressRange => !(added.base < curr.base)) (head :: rest).reverse
  have below : ∀ range ∈ lower, range.base.toNat < added.base.toNat := by
    intro range member
    have distinct := fresh range (List.mem_reverse.mp (whole ▸ List.mem_append_left _ member))
    have test := passed range member
    simp only [Bool.not_eq_true', decide_eq_false_iff_not, lt_def] at test
    omega
  cases upper with
  | nil =>
    have lowest : ∀ range ∈ head :: rest, range.base.toNat < added.base.toNat := by
      intro range member
      apply below
      rw [List.append_nil] at whole
      rwa [← whole, List.mem_reverse]
    refine .inr ⟨lowest head (by simp), by rw [insertRange, halves], ?_⟩
    exact List.pairwise_cons.mpr ⟨fun range member => lowest range (by simp [member]), descends.of_cons⟩
  | cons found before =>
    have higher : added.base.toNat < found.base.toNat := by
      simpa [lt_def] using stopped found rfl
    have list : head :: rest = (before.reverse ++ [found]) ++ lower.reverse := by
      simpa using congrArg List.reverse whole
    have above : ∀ range ∈ before.reverse ++ [found], added.base.toNat < range.base.toNat := by
      intro range member
      rw [list] at descends
      rcases List.mem_append.mp member with earlier | last
      · have order := (List.pairwise_append.mp (List.pairwise_append.mp descends).1).2.2
        exact higher.trans (order range earlier found (by simp))
      · rwa [List.mem_singleton.mp last]
    refine .inl ⟨above head ?_, before.reverse ++ [found], lower.reverse, list, by simp, ?_, ?_⟩
    · rcases List.cons_eq_append_iff.mp list with ⟨empty, -⟩ | ⟨tail, front, -⟩
      · simp at empty
      · simp [front]
    · rw [insertRange, halves]
      simp
    · rw [list] at descends
      obtain ⟨front, back, across⟩ := List.pairwise_append.mp descends
      refine List.pairwise_append.mpr ⟨front, List.pairwise_cons.mpr ⟨?_, back⟩, ?_⟩
      · intro range member
        exact below range (List.mem_reverse.mp member)
      · exact fun first left => List.forall_mem_cons.mpr ⟨above first left, across first left⟩

theorem header_finish {range : BitVec 64 × BitVec 64} (aligned : range.1.toNat % 4096 = 0 ∧ range.2.toNat % 4096 = 0)
    (filled : range.1.toNat < range.2.toNat) : (header range).finish.toNat = range.2.toNat := by
  have size := congrArg Prod.snd (header_extent aligned filled)
  simp only [extent, bytes, region] at size
  rw [AddressRange.finish, toNat_add, pages_bytes (by omega), size]
  simp only [header]
  omega

/-- No range of a descending list continues its predecessor, so nothing merges. -/
theorem mergeFrom_descends {range : AddressRange} {rest : List AddressRange} (descends : Descends (range :: rest))
    (filled : ∀ entry ∈ range :: rest, entry.base.toNat < entry.finish.toNat) :
    mergeFrom range rest = range :: rest := by
  induction rest generalizing range with
  | nil => rfl
  | cons following rest ih =>
    have lower := (List.pairwise_cons.mp descends).1 following (by simp)
    have ends := filled range (by simp)
    have apart : range.finish ≠ following.base := by
      intro same
      rw [same] at ends
      omega
    simp only [mergeFrom, apart, beq_iff_eq, Bool.and_eq_true, and_false, ↓reduceIte]
    rw [ih descends.of_cons fun entry member => filled entry (List.mem_cons_of_mem _ member)]

/-- What the allocator knows after a sequence of calls: descending headers of
ranges that were added, all of them as long as the first one is the highest. -/
structure Listed (added : List (BitVec 64 × BitVec 64)) (ranges : List AddressRange) : Prop where
  descends : Descends ranges
  known : ∀ range ∈ ranges, range ∈ added.map header
  held : added ≠ [] → ranges ≠ []
  complete : FirstHighest added → ranges.Perm (added.map header) ∧ ranges.head? = (added.map header).head?
  lost : ¬ FirstHighest added → ∃ range ∈ added, header range ∉ ranges

theorem firstHighest_append {added : List (BitVec 64 × BitVec 64)} {new : BitVec 64 × BitVec 64} :
    FirstHighest (added ++ [new]) ↔
      FirstHighest added ∧ ∀ first, added.head? = some first → new.1.toNat < first.1.toNat := by
  cases added with
  | nil => simp [FirstHighest]
  | cons first rest =>
    simp only [FirstHighest, List.cons_append, List.mem_append, List.mem_singleton, or_imp,
      forall_and, forall_eq, List.head?_cons, Option.some.injEq, forall_eq']

theorem Proper.front {added : List (BitVec 64 × BitVec 64)} {new : BitVec 64 × BitVec 64}
    (proper : Proper (added ++ [new])) : Proper added where
  aligned range member := proper.aligned range (by simp [member])
  filled range member := proper.filled range (by simp [member])
  separate := (List.pairwise_append.mp proper.separate).1

theorem Proper.fresh {added : List (BitVec 64 × BitVec 64)} {old new : BitVec 64 × BitVec 64}
    (proper : Proper (added ++ [new])) (member : old ∈ added) : old.1.toNat ≠ new.1.toNat := by
  intro same
  have apart := (List.pairwise_append.mp proper.separate).2.2 old member new (by simp)
  have left := proper.filled old (by simp [member])
  have right := proper.filled new (by simp)
  apply apart old.1.toNat
  simp only [Covers, region]
  omega

theorem Listed.head_first {added : List (BitVec 64 × BitVec 64)} {head : AddressRange}
    {rest : List AddressRange} (listed : Listed added (head :: rest)) (highest : FirstHighest added) :
    ∃ first, added.head? = some first ∧ first ∈ added ∧ head = header first := by
  have same := (listed.complete highest).2
  cases added with
  | nil => simp at same
  | cons first _ => exact ⟨first, rfl, by simp, by simpa using same⟩

theorem Listed.lost_stays {added : List (BitVec 64 × BitVec 64)} {new : BitVec 64 × BitVec 64}
    {ranges after : List AddressRange} (listed : Listed added ranges)
    (proper : Proper (added ++ [new])) (grows : ∀ range ∈ after, range = header new ∨ range ∈ ranges)
    (unordered : ¬ FirstHighest added) : ∃ range ∈ added ++ [new], header range ∉ after := by
  obtain ⟨old, member, missing⟩ := listed.lost unordered
  refine ⟨old, by simp [member], fun back => ?_⟩
  rcases grows _ back with same | kept
  · exact proper.fresh member (congrArg (fun range => range.base.toNat) same)
  · exact missing kept

/-- A range below the head is listed with the others. -/
theorem Listed.insert_below {added : List (BitVec 64 × BitVec 64)} {new : BitVec 64 × BitVec 64}
    {head : AddressRange} {rest after : List AddressRange} (listed : Listed added (head :: rest))
    (proper : Proper (added ++ [new])) (lower : new.1.toNat < head.base.toNat)
    (order : after.Perm (header new :: head :: rest)) (first : after.head? = some head)
    (descends : Descends after) : Listed (added ++ [new]) after where
  descends := descends
  known range member := by
    rcases List.mem_cons.mp (order.subset member) with rfl | old
    · simp
    · rw [List.map_append]
      exact List.mem_append_left _ (listed.known range old)
  held _ := by
    rintro rfl
    simp at first
  complete highest := by
    obtain ⟨same, start⟩ := listed.complete (firstHighest_append.mp highest).1
    rw [List.map_append]
    refine ⟨order.trans ((same.cons _).trans (List.perm_append_singleton _ _).symm), ?_⟩
    rw [first, List.head?_append, ← start]
    rfl
  lost unordered := by
    by_cases highest : FirstHighest added
    · obtain ⟨top, start, -, rfl⟩ := listed.head_first highest
      refine absurd (firstHighest_append.mpr ⟨highest, ?_⟩) unordered
      intro first same
      obtain rfl : top = first := by simpa [start] using same
      exact lower
    · exact listed.lost_stays proper (fun range member => List.mem_cons.mp (order.subset member))
        highest

/-- A range above the head takes its place, and the head is lost. -/
theorem Listed.replace_head {added : List (BitVec 64 × BitVec 64)} {new : BitVec 64 × BitVec 64}
    {head : AddressRange} {rest : List AddressRange} (listed : Listed added (head :: rest))
    (proper : Proper (added ++ [new])) (higher : head.base.toNat < new.1.toNat)
    (descends : Descends (header new :: rest)) : Listed (added ++ [new]) (header new :: rest) where
  descends := descends
  known range member := by
    rcases List.mem_cons.mp member with rfl | old
    · simp
    · rw [List.map_append]
      exact List.mem_append_left _ (listed.known range (by simp [old]))
  held _ := by simp
  complete highest := by
    obtain ⟨first, lower⟩ := firstHighest_append.mp highest
    obtain ⟨top, start, -, rfl⟩ := listed.head_first first
    have below := lower top start
    simp only [header] at higher
    omega
  lost unordered := by
    by_cases highest : FirstHighest added
    · obtain ⟨top, -, member, rfl⟩ := listed.head_first highest
      refine ⟨top, by simp [member], fun back => ?_⟩
      rcases List.mem_cons.mp back with same | kept
      · exact proper.fresh member (congrArg (fun range => range.base.toNat) same)
      · exact Nat.lt_irrefl _ ((List.pairwise_cons.mp listed.descends).1 _ kept)
    · exact listed.lost_stays proper (by simp +contextual [or_imp]) highest

theorem Listed.merged {added : List (BitVec 64 × BitVec 64)} {ranges : List AddressRange}
    (listed : Listed added ranges) (proper : Proper added) : mergeAll ranges = ranges := by
  cases ranges with
  | nil => rfl
  | cons head rest =>
    apply mergeFrom_descends listed.descends
    intro entry member
    obtain ⟨range, known, rfl⟩ := List.mem_map.mp (listed.known entry member)
    have filled := proper.filled range known
    rwa [header_finish (proper.aligned range known) filled]

theorem insertRange_listed {added : List (BitVec 64 × BitVec 64)} {new : BitVec 64 × BitVec 64}
    {head : AddressRange} {rest : List AddressRange} (listed : Listed added (head :: rest))
    (proper : Proper (added ++ [new])) : Listed (added ++ [new]) (insertRange (header new) head rest) := by
  have fresh : ∀ range ∈ head :: rest, range.base.toNat ≠ (header new).base.toNat := by
    intro range member
    obtain ⟨old, known, rfl⟩ := List.mem_map.mp (listed.known range member)
    exact proper.fresh known
  rcases insertRange_cases listed.descends fresh with
    ⟨lower, above, below, list, nonempty, result, descends⟩ | ⟨higher, result, descends⟩
  · rw [result]
    refine listed.insert_below proper lower ?_ ?_ descends
    · rw [list]
      exact List.perm_middle
    · rw [List.head?_append_of_ne_nil _ nonempty, ← List.head?_append_of_ne_nil _ nonempty, ← list]
      rfl
  · rw [result]
    exact listed.replace_head proper higher descends

theorem addRange_listed {added : List (BitVec 64 × BitVec 64)} {new : BitVec 64 × BitVec 64}
    {ranges : List AddressRange} (listed : Listed added ranges) (proper : Proper (added ++ [new])) :
    Listed (added ++ [new]) (addRange ranges new.1 new.2) := by
  cases ranges with
  | nil =>
    obtain rfl : added = [] := by
      by_contra some
      exact listed.held some rfl
    exact ⟨List.pairwise_singleton _ _, by simp [addRange, mergeAll, mergeFrom, header],
      by simp [addRange, mergeAll, mergeFrom], fun _ => ⟨.rfl, rfl⟩, by simp [FirstHighest]⟩
  | cons head rest =>
    have inserted := insertRange_listed listed proper
    change Listed _ (mergeAll (insertRange (header new) head rest))
    rwa [inserted.merged proper]

theorem addAll_listed {added : List (BitVec 64 × BitVec 64)} (proper : Proper added) :
    Listed added (addAll added) := by
  induction added using List.reverseRecOn with
  | nil => exact ⟨.nil, by simp [addAll], by simp, fun _ => ⟨.nil, rfl⟩, by simp [FirstHighest]⟩
  | append_singleton added new ih =>
    rw [addAll, List.foldl_append]
    exact addRange_listed (ih proper.front) proper

/-- With all headers there, every added page is listed once. -/
theorem once_of_perm {added : List (BitVec 64 × BitVec 64)} {ranges : List AddressRange}
    (proper : Proper added) (order : ranges.Perm (added.map header)) (point : Nat) :
    ranges.countP (fun range => Covers (extent range) point) =
      added.countP (fun range => Covers (region range) point) := by
  rw [order.countP_eq, List.countP_map]
  apply List.countP_congr
  intro range member
  simp [header_extent (proper.aligned range member) (proper.filled range member)]

theorem total_of_perm {added : List (BitVec 64 × BitVec 64)} {ranges : List AddressRange}
    (proper : Proper added) (order : ranges.Perm (added.map header)) :
    ((ranges.filter fun range => !range.used).map fun range => range.pages.toNat).sum =
      (added.map fun range => (range.2.toNat - range.1.toNat) / 4096).sum := by
  rw [((order.filter _).map _).sum_nat]
  have free : (added.map header).filter (fun range => !range.used) = added.map header := by
    rw [List.filter_eq_self]
    intro range member
    obtain ⟨_, -, rfl⟩ := List.mem_map.mp member
    rfl
  rw [free, List.map_map]
  congr 1
  apply List.map_congr_left
  intro range member
  have filled := proper.filled range member
  simp only [Function.comp_apply, header, toNat_udiv, pageSize_toNat]
  rw [toNat_sub_of_le (by rw [le_def]; omega)]

theorem touch_symm {first second : Nat × Nat} : Touch first second ↔ Touch second first := or_comm

section Gaps
variable {ranges : List AddressRange} (descends : Descends ranges)
  (separate : ranges.Pairwise fun first second => Separate (extent first) (extent second))
  (filled : ∀ range ∈ ranges, 0 < (extent range).2)
include descends separate filled

/-- Neighbours of a descending list of separate ranges that do not touch leave a
gap, and so do all others. -/
theorem gaps_ordered (chain : ranges.IsChain fun first second => ¬ Touch (extent first) (extent second)) :
    ranges.Pairwise fun first second => (extent second).1 + (extent second).2 < (extent first).1 := by
  induction ranges with
  | nil => exact .nil
  | cons top rest ih =>
    have lower := ih descends.of_cons separate.of_cons
      (fun range member => filled range (by simp [member])) chain.of_cons
    refine List.pairwise_cons.mpr ⟨?_, lower⟩
    cases rest with
    | nil => simp
    | cons next rest =>
      have down : (extent next).1 < (extent top).1 :=
        (List.pairwise_cons.mp descends).1 next (by simp)
      have apart := (List.pairwise_cons.mp separate).1 next (by simp)
      have untouched := (List.isChain_cons_cons.mp chain).1
      have size := filled next (by simp)
      have wide := filled top (by simp)
      have gap : (extent next).1 + (extent next).2 < (extent top).1 := by
        have outside := apart (extent top).1
        simp only [Covers, Touch] at outside untouched
        omega
      refine List.forall_mem_cons.mpr ⟨gap, fun range later => ?_⟩
      have far := (List.pairwise_cons.mp lower).1 range later
      omega

theorem gaps_iff : (ranges.IsChain fun first second => ¬ Touch (extent first) (extent second)) ↔
      ranges.Pairwise fun first second => ¬ Touch (extent first) (extent second) := by
  refine ⟨fun chain => ?_, List.Pairwise.isChain⟩
  apply (gaps_ordered descends separate filled chain).imp
  intro first second gap
  simp only [Touch]
  omega

end Gaps

/-- A symmetric relation holds between the headers of a complete list exactly
when it holds between the ranges that were added. -/
theorem pairwise_of_perm {added : List (BitVec 64 × BitVec 64)} {ranges : List AddressRange}
    (related : Nat × Nat → Nat × Nat → Prop)
    (symm : ∀ first second, related first second → related second first) (proper : Proper added)
    (order : ranges.Perm (added.map header)) :
    (ranges.Pairwise fun first second => related (extent first) (extent second)) ↔
      added.Pairwise fun first second => related (region first) (region second) := by
  rw [order.pairwise_iff (fun {_ _} => symm _ _), List.pairwise_map]
  have same : ∀ range ∈ added, extent (header range) = region range := fun range member =>
    header_extent (proper.aligned range member) (proper.filled range member)
  constructor
  · intro apart
    apply apart.imp_of_mem
    intro first second left right
    rw [same first left, same second right]
    exact id
  · intro apart
    apply apart.imp_of_mem
    intro first second left right
    rw [same first left, same second right]
    exact id

theorem keeps_iff {added : List (BitVec 64 × BitVec 64)} (proper : Proper added) :
    Keeps added (addAll added) ↔ FirstHighest added ∧
      added.Pairwise fun first second => ¬ Touch (region first) (region second) := by
  have listed := addAll_listed proper
  by_cases highest : FirstHighest added
  · obtain ⟨order, -⟩ := listed.complete highest
    have separate := (pairwise_of_perm Separate (fun _ _ => Separate.symm) proper order).mpr proper.separate
    have filled : ∀ range ∈ addAll added, 0 < (extent range).2 := by
      intro range member
      obtain ⟨old, known, rfl⟩ := List.mem_map.mp (listed.known range member)
      rw [header_extent (proper.aligned old known) (proper.filled old known)]
      exact Nat.sub_pos_of_lt (proper.filled old known)
    have apart := (gaps_iff listed.descends separate filled).trans
      (pairwise_of_perm (fun first second => ¬ Touch first second)
        (fun _ _ apart => mt touch_symm.mp apart) proper order)
    exact ⟨fun kept => ⟨highest, apart.mp kept.gaps⟩, fun ⟨_, gaps⟩ =>
      ⟨once_of_perm proper order, apart.mpr gaps, total_of_perm proper order⟩⟩
  · refine ⟨fun kept => ?_, fun both => absurd both.1 highest⟩
    obtain ⟨lost, member, missing⟩ := listed.lost highest
    have filled := proper.filled lost member
    have count := kept.once lost.1.toNat
    have here : Covers (region lost) lost.1.toNat := by
      simp only [Covers, region]
      omega
    have some : 0 < added.countP fun range => decide (Covers (region range) lost.1.toNat) :=
      List.countP_pos_iff.mpr ⟨lost, member, by simpa using here⟩
    rw [← count] at some
    obtain ⟨range, present, covers⟩ := List.countP_pos_iff.mp some
    obtain ⟨other, known, rfl⟩ := List.mem_map.mp (listed.known range present)
    rw [header_extent (proper.aligned other known) (proper.filled other known)] at covers
    have : Std.Symm fun first second => Separate (region first) (region second) :=
      ⟨fun _ _ => Separate.symm⟩
    have differ : other ≠ lost := by
      rintro rfl
      exact missing present
    exact absurd ⟨of_decide_eq_true covers, here⟩
      (proper.separate.forall known member differ lost.1.toNat)

/-- `addRange` keeps a sequence of ranges, in either order of the list, exactly
when the first range is the highest and no two touch; an ascending list has at
most one range. -/
theorem add_keeps_iff (added : List (BitVec 64 × BitVec 64)) (proper : Proper added) :
    ((addAll added).Pairwise (fun first second => first.base < second.base) ∧
      Keeps added (addAll added) ↔ added.length ≤ 1) ∧
    (((addAll added).Pairwise (fun first second => first.base < second.base) ∨
        (addAll added).Pairwise (fun first second => second.base < first.base)) ∧ Keeps added (addAll added) ↔
      FirstHighest added ∧ added.Pairwise fun first second => ¬ Touch (region first) (region second)) := by
  have listed := addAll_listed proper
  rw [keeps_iff proper]
  refine ⟨⟨?_, ?_⟩, fun both => both.2, fun kept => ⟨.inr listed.descends, kept⟩⟩
  · rintro ⟨ascends, highest, -⟩
    rw [← List.length_map header, ← (listed.complete highest).1.length_eq]
    have descends := listed.descends
    match addAll added, ascends, descends with
    | [], _, _ => simp
    | [_], _, _ => simp
    | first :: second :: _, ascends, descends =>
      have up := (List.pairwise_cons.mp ascends).1 second (by simp)
      have down := (List.pairwise_cons.mp descends).1 second (by simp)
      rw [BitVec.lt_def] at up
      omega
  · intro short
    match added, short with
    | [], _ => simp [addAll, FirstHighest]
    | [range], _ => simp [addAll, addRange, mergeAll, mergeFrom, FirstHighest]

theorem add_keeps_iff_descending : FirstHighest [((0x4000 : BitVec 64), (0x5000 : BitVec 64)), (0x1000, 0x2000)] ∧
      Keeps [(0x4000, 0x5000), (0x1000, 0x2000)] (addAll [(0x4000, 0x5000), (0x1000, 0x2000)]) := by
  have proper : Proper [(0x4000, 0x5000), (0x1000, 0x2000)] :=
    ⟨by simp, by simp, by simp [Separate, Covers, region]; omega⟩
  have highest : FirstHighest [((0x4000 : BitVec 64), (0x5000 : BitVec 64)), (0x1000, 0x2000)] := by
    simp [FirstHighest]
  exact ⟨highest, ((add_keeps_iff _ proper).2.mpr ⟨highest, by decide⟩).2⟩

/-- The second of two ascending ranges takes the place of the first. -/
theorem add_range_loses : addAll [(0x1000, 0x2000), (0x3000, 0x4000)] = [⟨0x3000, 1, false⟩] ∧
      ¬ Keeps [(0x1000, 0x2000), (0x3000, 0x4000)] (addAll [(0x1000, 0x2000), (0x3000, 0x4000)]) := by
  refine ⟨by decide, fun kept => ?_⟩
  exact absurd (kept.once 0x1000) (by decide)

end LunaOS.RangeRequests
