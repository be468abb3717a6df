import LunaOS.PageArithmetic
import Mathlib.Data.List.Basic

/-! The virtual address range allocator (`memory/virtual_address_range_allocator.cpp`).
The headers form a singly linked list that only this allocator reaches, so the
list of headers in order is the whole state; all arithmetic is the machine's. -/
namespace LunaOS.RangeAllocator
open PageArithmetic

/-- `k_address_range_header`; the link is the list's, the four letters of
`requestBy` are never read. -/
structure AddressRange where
  base : BitVec 64
  pages : BitVec 64
  used : Bool
  deriving DecidableEq, Repr

/-- Where a range ends, as the source computes it. -/
def AddressRange.finish (range : AddressRange) : BitVec 64 := range.base + range.pages * pageSize

def mergeFrom (range : AddressRange) : List AddressRange → List AddressRange
  | [] => [range]
  | following :: rest =>
    if !range.used && !following.used && range.finish == following.base then
      mergeFrom { range with pages := range.pages + following.pages } rest
    else range :: mergeFrom following rest

/-- `mergeAll`: a range absorbs its successors as long as both are free and they
continue each other. -/
def mergeAll : List AddressRange → List AddressRange
  | [] => []
  | range :: rest => mergeFrom range rest

/-- The insertion of `addRange` into a list that is not empty: after the last
header with a higher base, and in the place of the head if there is none. -/
def insertRange (added : AddressRange) (head : AddressRange) (rest : List AddressRange) : List AddressRange :=
  match (head :: rest).reverse.span (fun curr => !(added.base < curr.base)) with
  | (_, []) => added :: rest
  | (lower, found :: before) => before.reverse ++ found :: added :: lower.reverse

/-- `addRange` -/
def addRange (ranges : List AddressRange) (start finish : BitVec 64) : List AddressRange :=
  let added : AddressRange := ⟨start, (finish - start) / pageSize, false⟩
  match ranges with
  | [] => mergeAll [added]
  | head :: rest => mergeAll (insertRange added head rest)

/-- `allocateRange`: the base of the first free range that is large enough, which
keeps the pages asked for and leaves the others behind as a free range; `NULL`
when there is none. -/
def allocateRange : List AddressRange → BitVec 64 → BitVec 64 × List AddressRange
  | [], _ => (0, [])
  | range :: rest, pages =>
    if !range.used && pages ≤ range.pages then
      let split : AddressRange := ⟨range.base + pages * pageSize, range.pages - pages, false⟩
      (range.base, { range with used := true, pages := pages } ::
        if pages < range.pages then split :: rest else rest)
    else
      let (base, rest) := allocateRange rest pages
      (base, range :: rest)

/-- The unmarking in `freeRange`; `none` when the first range at `base` is free
or there is none. -/
def releaseRange : List AddressRange → BitVec 64 → Option (List AddressRange)
  | [], _ => none
  | range :: rest, base =>
    if range.base = base then
      if range.used then some ({ range with used := false } :: rest) else none
    else (releaseRange rest base).map (range :: ·)

/-- `freeRange` -/
def freeRange (ranges : List AddressRange) (base : BitVec 64) : List AddressRange :=
  match releaseRange ranges base with
  | some released => mergeAll released
  | none => ranges

/-- The test of `useRange`: a free range that begins at or below the request and
ends strictly above it. -/
def Contains (range : AddressRange) (start size : BitVec 64) : Bool :=
  !range.used && range.base ≤ alignPageDown start &&
    alignPageDown start + size * pageSize < range.finish

/-- What `useRange` puts in the place of the range it found. A request at the
very base marks the range used and leaves its page count alone. -/
def occupy (range : AddressRange) (start size : BitVec 64) : List AddressRange :=
  let startAligned := alignPageDown start
  if range.base = startAligned then
    [{ range with used := true }, ⟨range.base + size * pageSize, range.pages - size, false⟩]
  else
    let before := (startAligned - range.base) / pageSize
    [{ range with pages := before }, ⟨startAligned, size, true⟩,
      ⟨startAligned + size * pageSize, range.pages - (before + size), false⟩]

/-- `useRange` -/
def useRange : List AddressRange → BitVec 64 → BitVec 64 → Bool × List AddressRange
  | [], _, _ => (false, [])
  | range :: rest, start, size =>
    if Contains range start size then (true, occupy range start size ++ rest)
    else
      let (found, rest) := useRange rest start size
      (found, range :: rest)

/-! ## What each operation does to the list -/

/-- The pieces `allocateRange` makes of the range it found. -/
def take (range : AddressRange) (pages : BitVec 64) : List AddressRange :=
  { range with used := true, pages := pages } ::
    if pages < range.pages then [⟨range.base + pages * pageSize, range.pages - pages, false⟩] else []

theorem allocateRange_cases (ranges : List AddressRange) (pages : BitVec 64) :
    (allocateRange ranges pages = (0, ranges) ∧ ∀ range ∈ ranges, ¬ (range.used = false ∧ pages ≤ range.pages)) ∨
      ∃ pre range post, ranges = pre ++ [range] ++ post ∧ range.used = false ∧ pages ≤ range.pages ∧
        allocateRange ranges pages = (range.base, pre ++ take range pages ++ post) := by
  induction ranges with
  | nil => exact .inl ⟨rfl, by simp⟩
  | cons range rest ih =>
    by_cases fits : (!range.used && decide (pages ≤ range.pages)) = true
    · obtain ⟨free, enough⟩ : range.used = false ∧ pages ≤ range.pages := by simpa using fits
      refine .inr ⟨[], range, rest, rfl, free, enough, ?_⟩
      rw [allocateRange, if_pos fits]
      by_cases larger : pages < range.pages <;> simp [take, larger]
    · rw [allocateRange, if_neg fits]
      rcases ih with ⟨same, none⟩ | ⟨pre, found, post, rfl, free, enough, taken⟩
      · refine .inl ⟨by rw [same], List.forall_mem_cons.mpr ⟨?_, none⟩⟩
        simpa using fits
      · exact .inr ⟨range :: pre, found, post, rfl, free, enough, by rw [taken]; rfl⟩

theorem releaseRange_cases (ranges : List AddressRange) (base : BitVec 64) : releaseRange ranges base = none ∨
      ∃ pre range post, ranges = pre ++ [range] ++ post ∧ range.used = true ∧ range.base = base ∧
        releaseRange ranges base = some (pre ++ [{ range with used := false }] ++ post) := by
  induction ranges with
  | nil => exact .inl rfl
  | cons range rest ih =>
    rw [releaseRange]
    by_cases here : range.base = base
    · rw [if_pos here]
      by_cases used : range.used
      · exact .inr ⟨[], range, rest, rfl, used, here, by rw [if_pos used]; rfl⟩
      · exact .inl (if_neg used)
    · rw [if_neg here]
      rcases ih with none | ⟨pre, found, post, rfl, used, place, released⟩
      · exact .inl (by rw [none]; rfl)
      · exact .inr ⟨range :: pre, found, post, rfl, used, place, by rw [released]; rfl⟩

theorem useRange_cases (ranges : List AddressRange) (start size : BitVec 64) :
    (useRange ranges start size = (false, ranges) ∧ ∀ range ∈ ranges, Contains range start size = false) ∨
      ∃ pre range post, ranges = pre ++ [range] ++ post ∧ Contains range start size = true ∧
        useRange ranges start size = (true, pre ++ occupy range start size ++ post) := by
  induction ranges with
  | nil => exact .inl ⟨rfl, by simp⟩
  | cons range rest ih =>
    rw [useRange]
    by_cases inside : Contains range start size = true
    · exact .inr ⟨[], range, rest, rfl, inside, by rw [if_pos inside]; rfl⟩
    · rw [if_neg inside]
      rcases ih with ⟨missed, none⟩ | ⟨pre, found, post, rfl, contained, occupied⟩
      · exact .inl ⟨by rw [missed], List.forall_mem_cons.mpr ⟨by simpa using inside, none⟩⟩
      · exact .inr ⟨range :: pre, found, post, rfl, contained, by rw [occupied]; rfl⟩

theorem useRange_missed (missed : (useRange ranges start size).1 = false) :
    (useRange ranges start size).2 = ranges := by
  rcases useRange_cases ranges start size with ⟨same, _⟩ | ⟨_, _, _, _, _, found⟩
  · rw [same]
  · rw [found] at missed
    cases missed

end LunaOS.RangeAllocator
