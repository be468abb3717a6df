import LunaOS.MemoryMap
import LunaOS.PageTableTree

/-! The construction of the bitmap with its accesses checked. The bitmap has a bit for
every page the entries have in sum, while the bits are set by page number: a hole, or
what the two divisions drop, puts the last pages behind its end. -/
namespace LunaOS.BitmapBounds
open BitVec
open BitmapAllocator BoundedLoop FrameSearch MemoryMap PageArithmetic PageTables PageTableTree ByteMemory

/-- What a checked run stops at. -/
inductive Fault where
  | outside (index : BitVec 64)
  | bitmapPageUnassigned
  deriving DecidableEq, Repr

/-- The byte of the bit is one of the bitmap's. -/
def Within (bitmap : Bitmap) (index : BitVec 64) : Prop := index / 8 < bitmap.size

instance (bitmap : Bitmap) (index : BitVec 64) : Decidable (Within bitmap index) :=
  inferInstanceAs (Decidable (_ < _))

/-- `Bitmap::operator[]`, checked. -/
def readBit (bitmap : Bitmap) (index : BitVec 64) : Except Fault Bool :=
  if Within bitmap index then .ok (bitmap.get index) else .error (.outside index)

/-- `Bitmap::set`, checked. -/
def writeBit (bitmap : Bitmap) (index : BitVec 64) (value : Bool) : Except Fault Bitmap :=
  if Within bitmap index then .ok (bitmap.set index value) else .error (.outside index)

def markTurnChecked (entry : MmapEntry) (memStatus : Bool) :
    Bitmap × BitVec 64 → Turn (Bitmap × BitVec 64) (Except Fault Bitmap)
  | (bitmap, pageAddr) =>
    if pageAddr < entry.length then
      let pageBit := (entry.base + pageAddr) / pageSize
      match writeBit bitmap pageBit memStatus with
      | .ok bitmap => .again (bitmap, pageAddr + pageSize)
      | .error fault => .leave (.error fault)
    else .leave (.ok bitmap)

def mapEntryChecked (alloc : Allocator) (entry : MmapEntry) : Option (Except Fault Allocator) := do
  let memStatus := entry.type == stivale2MmapUsable
  let ended ← iterate (markTurnChecked entry memStatus) maxTurns (alloc.memoryBitmap, 0)
  pure (ended.map fun memoryBitmap => { alloc with
    freeMemory := alloc.freeMemory + if memStatus then entry.length else 0
    reservedMemory := alloc.reservedMemory + if !memStatus then entry.length else 0
    memoryBitmap })

def mapChecked (alloc : Allocator) : List MmapEntry → Option (Except Fault Allocator)
  | [] => some (.ok alloc)
  | entry :: rest =>
    match mapEntryChecked alloc entry with
    | none => none
    | some (.error fault) => some (.error fault)
    | some (.ok mapped) => mapChecked mapped rest

def placeChecked (bitmap : Bitmap) : Except Fault (Option Nat) :=
  (List.range bitmap.size.toNat).findM? fun pageIndex => do
    if ← readBit bitmap (BitVec.ofNat 64 pageIndex) then
      (List.range (bitmap.size.toNat / 4096 + 1)).allM fun i => readBit bitmap (BitVec.ofNat 64 (pageIndex + i))
    else pure false

def lockChecked (alloc : Allocator) (blockAddr : Addr) : Except Fault Allocator :=
  if !alloc.isInitialized then .ok alloc
  else do
    if ← readBit alloc.memoryBitmap (blockAddr / pageSize) then
      let memoryBitmap ← writeBit alloc.memoryBitmap (blockAddr / pageSize) false
      pure { alloc with
        freeMemory := alloc.freeMemory - pageSize
        usedMemory := alloc.usedMemory + pageSize
        memoryBitmap }
    else pure alloc

def moveChecked (alloc : Allocator) (bitmapSize : BitVec 64) (bitmapPage : Nat) (beyond : Addr → Byte) :
    Except Fault Allocator :=
  (bitmapBlocks bitmapSize bitmapPage).foldlM lockChecked (moved alloc bitmapSize bitmapPage beyond)

/-- The allocator as the loop over the entries finds it. -/
def started (memmap : List MmapEntry) (tempArr : Addr) : Allocator :=
  { constructed with isInitialized := true, memoryBitmap := ⟨tempArr, fun _ => 0, bitmapSize memmap⟩ }

/-- `BitmapAllocator::initialize` of the constructed allocator, checked; `none` when it
does not end. -/
def initializeChecked (memmap : List MmapEntry) (tempArr : Addr) (beyond : Addr → Byte) :
    Option (Except Fault Allocator) :=
  (mapChecked (started memmap tempArr) memmap).map fun ended => do
    let mapped ← ended
    match ← placeChecked mapped.memoryBitmap with
    | none => .error .bitmapPageUnassigned
    | some bitmapPage => moveChecked mapped (bitmapSize memmap) bitmapPage beyond

/-! ## The entries -/

/-- All pages of the entry have a bit. -/
def Fits (size : Nat) (entry : MmapEntry) : Prop := ∀ index, Marks entry index → index / 8 < size

/-- All entries do, up to one whose loop does not end. -/
def AllFit (size : Nat) : List MmapEntry → Prop
  | [] => True
  | entry :: rest => Fits size entry ∧ (Endless entry ∨ AllFit size rest)

theorem within_iff (bitmap : Bitmap) (small : index < 2 ^ 64) :
    Within bitmap (BitVec.ofNat 64 index) ↔ index / 8 < bitmap.size.toNat := by
  unfold Within
  rw [lt_def, toNat_udiv, toNat_ofNat, Nat.mod_eq_of_lt small]
  rfl

section Entry
variable {entry : MmapEntry} {bitmap : Bitmap} {value : Bool}

section Marks
variable (bounded : Bounded entry)
include bounded

theorem markTurnChecked_step (before : turn < pageCount entry)
    (within : (firstPage entry + turn) / 8 < bitmap.size.toNat) :
    markTurnChecked entry value (bitmap, BitVec.ofNat 64 (4096 * turn)) =
      .again (bitmap.set (BitVec.ofNat 64 (firstPage entry + turn)) value, BitVec.ofNat 64 (4096 * (turn + 1))) := by
  have early := turn_counted.mpr before
  have small := (marks_small bounded.low).1
  have inside := (within_iff bitmap (show firstPage entry + turn < 2 ^ 64 by omega)).mpr within
  simp only [markTurnChecked, if_pos ((turn_before (by omega)).mpr early), turn_page bounded.low early, writeBit,
    if_pos inside, turn_next]

/-- The loop of an entry that fits is the one without checks. -/
theorem markTurnChecked_ends (ends : ¬ Endless entry) (left turn : Nat)
    (fits : ∀ index, firstPage entry + turn ≤ index → Marks entry index → index / 8 < bitmap.size.toNat)
    (counted : turn + left = pageCount entry) (fuel : left < turns) :
    iterate (markTurnChecked entry value) turns (bitmap, BitVec.ofNat 64 (4096 * turn)) =
      some (.ok (markFrom bitmap value (firstPage entry + turn) left)) := by
  induction left generalizing bitmap turn turns with
  | zero =>
    have short : 4096 * turn < 2 ^ 64 := by
      unfold Endless at ends
      rw [pageCount] at counted
      omega
    refine iterate_leave ?_ fuel
    rw [markTurnChecked, if_neg]
    · rfl
    · rw [turn_before short, turn_counted]
      omega
  | succ left ih =>
    obtain ⟨rest, rfl⟩ : ∃ rest, turns = rest + 1 := ⟨turns - 1, by omega⟩
    have within := fits (firstPage entry + turn) (Nat.le_refl _) ⟨by omega, by omega⟩
    rw [iterate_again (markTurnChecked_step bounded (by omega) within)]
    refine ih _ ?_ (by omega) (by omega)
    intro index later marks
    exact fits index (by omega) marks

/-- The first page without a bit stops the loop. -/
theorem markTurnChecked_fails (outside : ¬ index / 8 < bitmap.size.toNat)
    (left turn : Nat) (counted : firstPage entry + turn + left = index)
    (marks : index < firstPage entry + pageCount entry) (fuel : left < turns) :
    ∃ fault, iterate (markTurnChecked entry value) turns (bitmap, BitVec.ofNat 64 (4096 * turn)) =
      some (.error fault) := by
  have small := (marks_small bounded.low).1
  induction left generalizing bitmap turn turns with
  | zero =>
    have early : 4096 * turn < entry.length.toNat := turn_counted.mpr (by omega)
    refine ⟨.outside (BitVec.ofNat 64 index), iterate_leave ?_ fuel⟩
    have past := (not_congr (within_iff bitmap (show index < 2 ^ 64 by omega))).mpr outside
    simp only [markTurnChecked, if_pos ((turn_before (by omega)).mpr early), turn_page bounded.low early, writeBit,
      show firstPage entry + turn = index by omega, if_neg past]
  | succ left ih =>
    obtain ⟨rest, rfl⟩ : ∃ rest, turns = rest + 1 := ⟨turns - 1, by omega⟩
    by_cases within : (firstPage entry + turn) / 8 < bitmap.size.toNat
    · rw [iterate_again (markTurnChecked_step bounded (by omega) within)]
      have still : ¬ index / 8 < (bitmap.set (BitVec.ofNat 64 (firstPage entry + turn)) value).size.toNat := outside
      exact ih still _ (by omega) (by omega)
    · have early : 4096 * turn < entry.length.toNat := turn_counted.mpr (by omega)
      have past := (not_congr (within_iff bitmap (show firstPage entry + turn < 2 ^ 64 by omega))).mpr within
      refine ⟨.outside (BitVec.ofNat 64 (firstPage entry + turn)), iterate_leave ?_ (Nat.succ_pos _)⟩
      simp only [markTurnChecked, if_pos ((turn_before (by omega)).mpr early), turn_page bounded.low early, writeBit,
        if_neg past]

/-- The loop of an entry that covers the address space goes on for ever. -/
theorem markTurnChecked_never (endless : Endless entry) (fits : Fits bitmap.size.toNat entry) (turns : Nat) :
    iterate (markTurnChecked entry value) turns (bitmap, 0) = none := by
  unfold Endless at endless
  have count : pageCount entry = 2 ^ 52 := by
    rw [pageCount]
    omega
  refine iterate_never (fun state => state.1.size = bitmap.size ∧ ∃ turn, turn < 2 ^ 52 ∧
    state.2 = BitVec.ofNat 64 (4096 * turn)) ⟨rfl, 0, by decide, rfl⟩ ?_ turns
  rintro ⟨marked, pageAddr⟩ ⟨size, turn, below, place⟩
  cases place
  have within := fits (firstPage entry + turn) ⟨by omega, by omega⟩
  rw [← size] at within
  refine ⟨_, markTurnChecked_step bounded (by omega) within, size, ?_⟩
  by_cases last : turn + 1 = 2 ^ 52
  · exact ⟨0, by decide, by rw [last]; rfl⟩
  · exact ⟨turn + 1, by omega, rfl⟩

/-- One entry: the loop ends, goes on for ever, or meets a page without a bit. -/
theorem mapEntryChecked_cases (alloc : Allocator) : (Fits alloc.memoryBitmap.size.toNat entry ∧ ¬ Endless entry ∧
        mapEntryChecked alloc entry = some (.ok (marked alloc entry))) ∨
      (Fits alloc.memoryBitmap.size.toNat entry ∧ Endless entry ∧ mapEntryChecked alloc entry = none) ∨
      (¬ Fits alloc.memoryBitmap.size.toNat entry ∧ ∃ fault, mapEntryChecked alloc entry = some (.error fault)) := by
  have small := (marks_small bounded.low).1
  by_cases fits : Fits alloc.memoryBitmap.size.toNat entry
  · by_cases endless : Endless entry
    · refine .inr (.inl ⟨fits, endless, ?_⟩)
      have loop : iterate (markTurnChecked entry (entry.type == stivale2MmapUsable)) maxTurns
          (alloc.memoryBitmap, 0) = none := markTurnChecked_never bounded endless fits maxTurns
      simp only [mapEntryChecked, loop]
      rfl
    · refine .inl ⟨fits, endless, ?_⟩
      have loop : iterate (markTurnChecked entry (entry.type == stivale2MmapUsable)) maxTurns
          (alloc.memoryBitmap, 0) =
            some (.ok (markFrom alloc.memoryBitmap (isUsable entry) (firstPage entry) (pageCount entry))) :=
        markTurnChecked_ends bounded endless (pageCount entry) 0 (fun index _ => fits index) (Nat.zero_add _)
          (by rw [maxTurns]; omega)
      simp only [mapEntryChecked, loop]
      rfl
  · refine .inr (.inr ⟨fits, ?_⟩)
    simp only [Fits, not_forall] at fits
    obtain ⟨index, ⟨above, below⟩, outside⟩ := fits
    obtain ⟨fault, loop⟩ : ∃ fault, iterate (markTurnChecked entry (entry.type == stivale2MmapUsable)) maxTurns
        (alloc.memoryBitmap, 0) = some (.error fault) :=
      markTurnChecked_fails bounded outside (index - firstPage entry) 0 (by omega) below (by rw [maxTurns]; omega)
    refine ⟨fault, ?_⟩
    simp only [mapEntryChecked, loop]
    rfl

end Marks

end Entry

/-- The loop over the entries fails exactly when they do not all fit, and otherwise is the
one without checks. -/
theorem mapChecked_cases {memmap : List MmapEntry} (bounded : ∀ entry ∈ memmap, Bounded entry) (alloc : Allocator) :
    (AllFit alloc.memoryBitmap.size.toNat memmap ∧ (∀ entry ∈ memmap, ¬ Endless entry) ∧
        mapChecked alloc memmap = some (.ok (mapped alloc memmap))) ∨
      (AllFit alloc.memoryBitmap.size.toNat memmap ∧ (∃ entry ∈ memmap, Endless entry) ∧
        mapChecked alloc memmap = none) ∨ (¬ AllFit alloc.memoryBitmap.size.toNat memmap ∧
        ∃ fault, mapChecked alloc memmap = some (.error fault)) := by
  induction memmap generalizing alloc with
  | nil => exact .inl ⟨trivial, by simp, rfl⟩
  | cons entry rest ih =>
    simp only [List.forall_mem_cons] at bounded
    simp only [AllFit, mapChecked, List.forall_mem_cons, List.exists_mem_cons_iff]
    rcases mapEntryChecked_cases bounded.1 alloc with
      ⟨fits, ends, ran⟩ | ⟨fits, endless, ran⟩ | ⟨outside, fault, ran⟩
    · have later := ih bounded.2 (marked alloc entry)
      rw [marked_size] at later
      simp only [ran, fits, ends, true_and, false_or, not_false_eq_true]
      exact later
    · simp only [ran, fits, endless, true_and, true_or, not_true_eq_false, false_and, false_or]
    · simp only [ran, outside, false_and, false_or, not_false_eq_true, true_and]
      exact ⟨fault, rfl⟩

/-! ## The place and the pages of the bitmap -/

theorem findM_ok {items : List α} {test : α → Except Fault Bool} {pure : α → Bool}
    (same : ∀ item ∈ items, test item = .ok (pure item)) : items.findM? test = .ok (items.find? pure) := by
  induction items with
  | nil => rfl
  | cons item rest ih =>
    simp only [List.forall_mem_cons] at same
    rw [List.findM?, same.1, List.find?]
    cases pure item with
    | true => rfl
    | false => exact ih same.2

theorem allM_ok {items : List α} {test : α → Except Fault Bool} {pure : α → Bool}
    (same : ∀ item ∈ items, test item = .ok (pure item)) : items.allM test = .ok (items.all pure) := by
  induction items with
  | nil => rfl
  | cons item rest ih =>
    simp only [List.forall_mem_cons] at same
    rw [List.allM, same.1, List.all_cons]
    cases pure item with
    | true => exact ih same.2
    | false => rfl

/-- The search reads no bit behind the bitmap. -/
theorem placeChecked_ok (bitmap : Bitmap) (small : bitmap.size.toNat ≤ 2 ^ 49) :
    placeChecked bitmap = .ok (bitmapPlace bitmap) := by
  have read : ∀ index, index / 8 < bitmap.size.toNat →
      readBit bitmap (BitVec.ofNat 64 index) = .ok (bitmap.get (BitVec.ofNat 64 index)) := by
    intro index inside
    rw [readBit, if_pos ((within_iff bitmap (by omega)).mpr inside)]
  apply findM_ok
  intro pageIndex member
  have bound := List.mem_range.mp member
  rw [read pageIndex (by omega)]
  cases bitmap.get (BitVec.ofNat 64 pageIndex) with
  | false => rfl
  | true =>
    apply allM_ok
    intro i inside
    have few := List.mem_range.mp inside
    exact read (pageIndex + i) (by omega)

theorem lockChecked_ok {alloc : Allocator} (within : Within alloc.memoryBitmap (blockAddr / pageSize)) :
    lockChecked alloc blockAddr = .ok (lockBlock alloc blockAddr) := by
  unfold lockChecked lockBlock
  split
  · rfl
  · simp only [readBit, writeBit, if_pos within]
    cases alloc.memoryBitmap.get (blockAddr / pageSize) <;> rfl

theorem lockAll_ok {blocks : List Addr} {alloc : Allocator}
    (within : ∀ block ∈ blocks, Within alloc.memoryBitmap (block / pageSize)) :
    blocks.foldlM lockChecked alloc = .ok (blocks.foldl lockBlock alloc) := by
  induction blocks generalizing alloc with
  | nil => rfl
  | cons block rest ih =>
    simp only [List.forall_mem_cons] at within
    rw [List.foldlM_cons, lockChecked_ok within.1]
    apply ih
    intro other member
    have inside := within.2 other member
    unfold Within at inside ⊢
    rwa [(lockBlock_fixed alloc block).2.1]

/-- The pages locked for the bitmap, by their numbers. -/
theorem bitmap_blocks (small : size.toNat ≤ 2 ^ 49) (inside : bitmapPage < size.toNat)
    (member : block ∈ (List.range (alignPageUp size / pageSize + 1).toNat).map fun i =>
      removeDirectmap (applyDirectmap (BitVec.ofNat 64 bitmapPage * pageSize)) + BitVec.ofNat 64 i * pageSize) :
    ∃ index, index < 8 * size.toNat ∧ block / pageSize = BitVec.ofNat 64 index := by
  obtain ⟨i, bound, rfl⟩ := List.mem_map.mp member
  have count : (alignPageUp size / pageSize + 1).toNat = (size.toNat + 4095) / 4096 + 1 := by
    have up := alignPageUp_toNat (show size.toNat + 4095 < 2 ^ 64 by omega)
    rw [toNat_add, toNat_udiv, up, pageSize_toNat, Nat.mul_div_cancel _ (by decide)]
    change (_ + 1) % _ = _
    omega
  have few := List.mem_range.mp bound
  refine ⟨bitmapPage + i, by omega, ?_⟩
  rw [removeDirectmap_applyDirectmap]
  apply eq_of_toNat_eq
  rw [toNat_udiv, toNat_add, page_address (by omega), page_address (by omega), pageSize_toNat, toNat_ofNat]
  omega

theorem moveChecked_ok {alloc : Allocator} (small : size.toNat ≤ 2 ^ 49) (inside : bitmapPage < size.toNat)
    (beyond : Addr → Byte) :
    moveChecked alloc size bitmapPage beyond = .ok (moveBitmap alloc size bitmapPage beyond) := by
  apply lockAll_ok
  intro block member
  obtain ⟨index, bound, place⟩ := bitmap_blocks small inside member
  rw [place, within_iff _ (by omega)]
  change index / 8 < size.toNat
  omega

/-! ## The whole construction -/

/-- As many usable pages as the bitmap takes, in a row that begins below the number of
its bytes. -/
def Placeable (memmap : List MmapEntry) : Prop :=
  ∃ page < (bitmapSize memmap).toNat, ∀ i ≤ (bitmapSize memmap).toNat / 4096, usable memmap (page + i) = true

section Construction
variable {memmap : List MmapEntry} {tempArr : Addr}

theorem started_clear (index : Nat) : ¬ Free (started memmap tempArr) index := by
  simp [Free, started, Bitmap.get]

theorem mapped_size : (mapped (started memmap tempArr) memmap).memoryBitmap.size = bitmapSize memmap :=
  (mapped_fixed ..).1

theorem mapped_place (bounded : ∀ entry ∈ memmap, Bounded entry) :
    (bitmapPlace (mapped (started memmap tempArr) memmap).memoryBitmap).isSome ↔ Placeable memmap := by
  have small := bitmapSize_le memmap
  have bit : ∀ page < (bitmapSize memmap).toNat, ∀ i ≤ (bitmapSize memmap).toNat / 4096,
      ((mapped (started memmap tempArr) memmap).memoryBitmap.get (BitVec.ofNat 64 (page + i)) = true ↔
        usable memmap (page + i) = true) := by
    intro page below i few
    exact mapped_free (fun entry member => (bounded entry member).low) (by omega) started_clear
  simp only [bitmapPlace, mapped_size, List.find?_isSome, List.mem_range, Bool.and_eq_true, List.all_eq_true]
  constructor
  · rintro ⟨page, below, _, all⟩
    refine ⟨page, below, fun i few => ?_⟩
    exact (bit page below i few).mp (all i (by omega))
  · rintro ⟨page, below, all⟩
    refine ⟨page, below, (bit page below 0 (by omega)).mpr (all 0 (by omega)), fun i few => ?_⟩
    exact (bit page below i (by omega)).mpr (all i (by omega))

/-- When all entries fit and end, the checked run is the other, if there is a place. -/
theorem initializeChecked_mapped
    (ran : mapChecked (started memmap tempArr) memmap = some (.ok (mapped (started memmap tempArr) memmap)))
    (beyond : Addr → Byte) : (bitmapPlace (mapped (started memmap tempArr) memmap).memoryBitmap = none ∧
        initializeChecked memmap tempArr beyond = some (.error .bitmapPageUnassigned)) ∨
      ∃ page, bitmapPlace (mapped (started memmap tempArr) memmap).memoryBitmap = some page ∧
        initializeChecked memmap tempArr beyond =
          some (.ok (moveBitmap (mapped (started memmap tempArr) memmap) (bitmapSize memmap) page beyond)) := by
  have small := bitmapSize_le memmap
  have searched := placeChecked_ok (mapped (started memmap tempArr) memmap).memoryBitmap (by rw [mapped_size]; exact small)
  unfold initializeChecked
  rw [ran]
  cases found : bitmapPlace (mapped (started memmap tempArr) memmap).memoryBitmap with
  | none =>
    refine .inl ⟨rfl, ?_⟩
    rw [found] at searched
    simp [searched, bind, Except.bind]
  | some page =>
    refine .inr ⟨page, rfl, ?_⟩
    have below : page < (bitmapSize memmap).toNat := by
      rw [← mapped_size]
      exact List.mem_range.mp (List.mem_of_find?_eq_some found)
    rw [found] at searched
    simp [searched, bind, Except.bind, moveChecked_ok small below]

/-- The construction as one chain. -/
theorem initializeAllocator_eq (memmap : List MmapEntry) (tempArr : Addr) (beyond : Addr → Byte) :
    initializeAllocator constructed memmap tempArr beyond =
      (memmap.foldlM mapEntry (started memmap tempArr)).bind fun mapped =>
        (bitmapPlace mapped.memoryBitmap).bind fun page =>
          some (moveBitmap mapped (bitmapSize memmap) page beyond) := rfl

theorem initializeAllocator_mapped (bounded : ∀ entry ∈ memmap, Bounded entry)
    (ends : ∀ entry ∈ memmap, ¬ Endless entry) (beyond : Addr → Byte) :
    initializeAllocator constructed memmap tempArr beyond =
      (bitmapPlace (mapped (started memmap tempArr) memmap).memoryBitmap).map fun page =>
        moveBitmap (mapped (started memmap tempArr) memmap) (bitmapSize memmap) page beyond := by
  have entries : memmap.foldlM mapEntry (started memmap tempArr) = some (mapped (started memmap tempArr) memmap) :=
    mapped_some (fun entry member => (bounded entry member).low) ends _
  rw [initializeAllocator_eq, entries, Option.bind_some]
  cases bitmapPlace (mapped (started memmap tempArr) memmap).memoryBitmap <;> rfl

end Construction

/-- Every access of the construction is inside the bitmap and its place is found before it
is used exactly when the pages of the entries have bits and there is such a place; a
checked run that ends well is the unchecked one. -/
theorem construction_in_bounds_iff (memmap : List MmapEntry) (bounded : ∀ entry ∈ memmap, Bounded entry)
    (tempArr : Addr) (beyond : Addr → Byte) :
    ((∀ fault, initializeChecked memmap tempArr beyond ≠ some (.error fault)) ↔
        AllFit (bitmapSize memmap).toNat memmap ∧ ((∀ entry ∈ memmap, ¬ Endless entry) → Placeable memmap)) ∧
      ∀ after, initializeChecked memmap tempArr beyond = some (.ok after) →
        initializeAllocator constructed memmap tempArr beyond = some after := by
  have place : (bitmapPlace (mapped (started memmap tempArr) memmap).memoryBitmap).isSome ↔ Placeable memmap :=
    mapped_place bounded
  rcases mapChecked_cases bounded (started memmap tempArr) with
    ⟨fit, ends, ran⟩ | ⟨fit, ⟨entry, member, endless⟩, ran⟩ | ⟨outside, fault, ran⟩
  · change AllFit (bitmapSize memmap).toNat memmap at fit
    rw [initializeAllocator_mapped bounded ends]
    rcases initializeChecked_mapped ran beyond with ⟨none, failed⟩ | ⟨page, found, ended⟩
    · rw [none] at place
      refine ⟨iff_of_false (fun fine => fine _ failed) fun both => ?_, fun after ended => ?_⟩
      · exact absurd (place.mpr (both.2 ends)) (by simp)
      · rw [failed] at ended
        cases ended
    · rw [found] at place
      refine ⟨iff_of_true (fun fault => ?_) ⟨fit, fun _ => place.mp rfl⟩, fun after same => ?_⟩
      · rw [ended]
        simp
      · rw [ended] at same
        cases same
        rw [found]
        rfl
  · have hangs : initializeChecked memmap tempArr beyond = none := by rw [initializeChecked, ran]; rfl
    rw [hangs]
    refine ⟨iff_of_true (by simp) ⟨fit, fun ends => absurd endless (ends entry member)⟩, by simp⟩
  · have failed : initializeChecked memmap tempArr beyond = some (.error fault) := by
      rw [initializeChecked, ran]
      rfl
    refine ⟨iff_of_false (fun fine => fine fault failed) fun both => outside both.1, fun after ended => ?_⟩
    rw [failed] at ended
    cases ended

/-- Sixteen usable pages from address 0 on. -/
theorem construction_in_bounds_iff_low :
    ¬ ∃ fault, initializeChecked [⟨0, 0x10000, 1⟩] 0 (fun _ => 0) = some (.error fault) := by
  rintro ⟨fault, failed⟩
  refine (construction_in_bounds_iff [⟨0, 0x10000, 1⟩] (by simp [Bounded]) 0 fun _ => 0).1.mpr ⟨?_, fun _ => ?_⟩
    fault failed
  · refine ⟨?_, .inr trivial⟩
    rintro index ⟨_, below⟩
    change index < 16 at below
    change index / 8 < 2
    omega
  · exact ⟨0, by decide, by decide⟩

/-- Eight usable pages above a hole of one: the last has no bit. -/
theorem page_behind_bitmap : ∃ fault,
    initializeChecked [⟨0x1000, 0x8000, 1⟩] 0 (fun _ => 0) = some (.error fault) := by
  have bounded : ∀ entry ∈ [(⟨0x1000, 0x8000, 1⟩ : MmapEntry)], Bounded entry := by simp [Bounded]
  rcases mapChecked_cases bounded (started [⟨0x1000, 0x8000, 1⟩] 0) with
    ⟨⟨fits, _⟩, _⟩ | ⟨⟨fits, _⟩, _⟩ | ⟨_, fault, ran⟩
  · exact absurd (fits 8 (by decide)) (by decide)
  · exact absurd (fits 8 (by decide)) (by decide)
  · exact ⟨fault, by rw [initializeChecked, ran]; rfl⟩

end LunaOS.BitmapBounds
