import LunaOS.FrameSearch

/-! The memory map in the bitmap. Every entry sets or clears one bit for each page it
reaches into, in the order of the map, so the last entry that marks a page decides. -/
namespace LunaOS.MemoryMap
open BitmapAllocator BoundedLoop FrameSearch PageArithmetic BitVec

def isUsable (entry : MmapEntry) : Bool := entry.type == stivale2MmapUsable

def firstPage (entry : MmapEntry) : Nat := entry.base.toNat / 4096

/-- How many pages the loop over an entry marks. -/
def pageCount (entry : MmapEntry) : Nat := (entry.length.toNat + 4095) / 4096

/-- The loop over the entry sets the bit of this page. -/
def Marks (entry : MmapEntry) (index : Nat) : Prop :=
  firstPage entry ≤ index ∧ index < firstPage entry + pageCount entry

instance (entry : MmapEntry) (index : Nat) : Decidable (Marks entry index) :=
  inferInstanceAs (Decidable (_ ∧ _))

/-- The entry ends inside the address space. -/
def Bounded (entry : MmapEntry) : Prop := entry.base.toNat + entry.length.toNat ≤ 2 ^ 64

/-- The pages the loop marks have numbers of pages of the address space. -/
def Low (entry : MmapEntry) : Prop := firstPage entry + pageCount entry ≤ 2 ^ 52

theorem Bounded.low {entry : MmapEntry} (bounded : Bounded entry) : Low entry := by
  unfold Bounded at bounded
  simp only [Low, firstPage, pageCount]
  omega

/-- The page counter passes over the length of the entry when it wraps. -/
def Endless (entry : MmapEntry) : Prop := 2 ^ 64 - 4096 < entry.length.toNat

instance (entry : MmapEntry) : Decidable (Endless entry) := inferInstanceAs (Decidable (_ < _))

/-- What the map says about a page in the end. -/
def usable (memmap : List MmapEntry) (index : Nat) : Bool :=
  memmap.foldl (fun bit entry => if Marks entry index then isUsable entry else bit) false

/-- The bits of consecutive pages, set to one value. -/
def markFrom (bitmap : Bitmap) (value : Bool) (first : Nat) : Nat → Bitmap
  | 0 => bitmap
  | count + 1 => markFrom (bitmap.set (BitVec.ofNat 64 first) value) value (first + 1) count

theorem markFrom_size (bitmap : Bitmap) (value : Bool) (first count : Nat) :
    (markFrom bitmap value first count).size = bitmap.size := by
  induction count generalizing bitmap first with
  | zero => rfl
  | succ count ih => rw [markFrom, ih, Bitmap.set_size]

theorem markFrom_get (bitmap : Bitmap) (value : Bool) (first count : Nat) (room : first + count ≤ 2 ^ 64)
    (bound : index < 2 ^ 64) : (markFrom bitmap value first count).get (BitVec.ofNat 64 index) =
      if first ≤ index ∧ index < first + count then value else bitmap.get (BitVec.ofNat 64 index) := by
  induction count generalizing bitmap first with
  | zero =>
    rw [if_neg (by omega)]
    rfl
  | succ count ih =>
    have same : BitVec.ofNat 64 index = BitVec.ofNat 64 first ↔ index = first := by
      rw [← toNat_inj, toNat_ofNat, toNat_ofNat]
      omega
    rw [markFrom, ih _ _ (by omega), Bitmap.get_set]
    simp only [same]
    split
    · rw [if_pos (by omega)]
    · split
      · rw [if_pos (by omega)]
      · rw [if_neg (by omega)]

section Entry
variable {entry : MmapEntry}

theorem marks_small (low : Low entry) : firstPage entry + pageCount entry ≤ 2 ^ 52 + 1 ∧
    ∀ index, Marks entry index → index < 2 ^ 52 := by
  unfold Low at low
  refine ⟨by omega, ?_⟩
  rintro index ⟨_, below⟩
  omega

theorem turn_counted : 4096 * turn < entry.length.toNat ↔ turn < pageCount entry := by
  rw [pageCount]
  omega

/-- The page a turn of the loop sets. -/
theorem turn_page (low : Low entry) (before : 4096 * turn < entry.length.toNat) :
    (entry.base + BitVec.ofNat 64 (4096 * turn)) / pageSize = BitVec.ofNat 64 (firstPage entry + turn) := by
  have early := turn_counted.mp before
  unfold Low firstPage at low
  apply eq_of_toNat_eq
  rw [toNat_udiv, toNat_add, pageSize_toNat, toNat_ofNat, toNat_ofNat, firstPage]
  omega

theorem turn_before (short : 4096 * turn < 2 ^ 64) :
    BitVec.ofNat 64 (4096 * turn) < entry.length ↔ 4096 * turn < entry.length.toNat := by
  rw [lt_def, toNat_ofNat, Nat.mod_eq_of_lt short]

theorem turn_next : BitVec.ofNat 64 (4096 * turn) + pageSize = BitVec.ofNat 64 (4096 * (turn + 1)) := by
  apply eq_of_toNat_eq
  rw [toNat_add, pageSize_toNat, toNat_ofNat, toNat_ofNat]
  omega

/-- From any turn on, the loop marks the pages that are left. -/
theorem markTurn_ends (low : Low entry) (ends : ¬ Endless entry) (value : Bool) (bitmap : Bitmap)
    (left turn : Nat) (counted : turn + left = pageCount entry) (fuel : left < turns) :
    iterate (markTurn entry value) turns (bitmap, BitVec.ofNat 64 (4096 * turn)) =
      some (markFrom bitmap value (firstPage entry + turn) left) := by
  unfold Endless at ends
  have short : 4096 * turn < 2 ^ 64 := by
    rw [pageCount] at counted
    omega
  induction left generalizing bitmap turn turns with
  | zero =>
    refine iterate_leave ?_ fuel
    rw [markTurn, if_neg]
    · rfl
    · rw [turn_before short, turn_counted]
      omega
  | succ left ih =>
    obtain ⟨rest, rfl⟩ : ∃ rest, turns = rest + 1 := ⟨turns - 1, by omega⟩
    have before : 4096 * turn < entry.length.toNat := turn_counted.mpr (by omega)
    have asked : markTurn entry value (bitmap, BitVec.ofNat 64 (4096 * turn)) =
        .again (bitmap.set (BitVec.ofNat 64 (firstPage entry + turn)) value, BitVec.ofNat 64 (4096 * (turn + 1))) := by
      rw [markTurn, if_pos ((turn_before short).mpr before), turn_page low before, turn_next]
    rw [iterate_again asked, ih _ _ (by omega) (by omega) (by rw [pageCount] at counted; omega)]
    rfl

/-- The entry's pages in the bitmap. -/
def marked (alloc : Allocator) (entry : MmapEntry) : Allocator :=
  { alloc with
    freeMemory := alloc.freeMemory + if isUsable entry then entry.length else 0
    reservedMemory := alloc.reservedMemory + if !isUsable entry then entry.length else 0
    memoryBitmap := markFrom alloc.memoryBitmap (isUsable entry) (firstPage entry) (pageCount entry) }

theorem marked_size (alloc : Allocator) (entry : MmapEntry) :
    (marked alloc entry).memoryBitmap.size = alloc.memoryBitmap.size :=
  markFrom_size ..

theorem mapEntry_marked (low : Low entry) (ends : ¬ Endless entry) (alloc : Allocator) :
    mapEntry alloc entry = some (marked alloc entry) := by
  have few : pageCount entry < maxTurns := by
    rw [maxTurns, pageCount]
    omega
  have loop : iterate (markTurn entry (entry.type == stivale2MmapUsable)) maxTurns (alloc.memoryBitmap, 0) =
      some (markFrom alloc.memoryBitmap (isUsable entry) (firstPage entry) (pageCount entry)) :=
    markTurn_ends low ends (isUsable entry) alloc.memoryBitmap (pageCount entry) 0 (Nat.zero_add _) few
  simp only [mapEntry, loop]
  rfl

/-- An entry whose loop returned does not cover the counter's range. -/
theorem mapEntry_ends (ran : mapEntry alloc entry = some after) : ¬ Endless entry := by
  intro endless
  unfold Endless at endless
  have loop : iterate (markTurn entry (entry.type == stivale2MmapUsable)) maxTurns (alloc.memoryBitmap, 0) =
      none := by
    refine iterate_never (fun state => ∃ turn, turn < 2 ^ 52 ∧ state.2 = BitVec.ofNat 64 (4096 * turn))
      ⟨0, by decide, rfl⟩ ?_ maxTurns
    rintro ⟨bitmap, pageAddr⟩ ⟨turn, below, place⟩
    cases place
    refine ⟨_, if_pos ((turn_before (by omega)).mpr (by omega)), ?_⟩
    by_cases last : turn + 1 = 2 ^ 52
    · refine ⟨0, by decide, turn_next.trans ?_⟩
      rw [last]
      rfl
    · exact ⟨turn + 1, by omega, turn_next⟩
  simp only [mapEntry, loop] at ran
  cases ran

theorem marked_get (low : Low entry) (alloc : Allocator) (bound : index < 2 ^ 52) : Free (marked alloc entry) index ↔
      if Marks entry index then isUsable entry = true else Free alloc index := by
  have small := (marks_small low).1
  have bit := markFrom_get alloc.memoryBitmap (isUsable entry) (firstPage entry) (pageCount entry)
    (by omega) (show index < 2 ^ 64 by omega)
  unfold Free
  rw [marked, bit]
  by_cases inside : Marks entry index
  · rw [if_pos inside, if_pos (by exact inside)]
  · rw [if_neg inside, if_neg (by exact inside)]

end Entry

/-! ## The whole map -/

/-- The allocator after all entries. -/
def mapped (alloc : Allocator) (memmap : List MmapEntry) : Allocator := memmap.foldl marked alloc

theorem mapped_some {memmap : List MmapEntry} (low : ∀ entry ∈ memmap, Low entry)
    (ends : ∀ entry ∈ memmap, ¬ Endless entry) (alloc : Allocator) :
    memmap.foldlM mapEntry alloc = some (mapped alloc memmap) := by
  induction memmap generalizing alloc with
  | nil => rfl
  | cons entry rest ih =>
    simp only [List.forall_mem_cons] at low ends
    rw [List.foldlM_cons, mapEntry_marked low.1 ends.1]
    exact ih low.2 ends.2 _

theorem mapped_ends {memmap : List MmapEntry} (ran : memmap.foldlM mapEntry alloc = some after) :
    ∀ entry ∈ memmap, ¬ Endless entry := by
  induction memmap generalizing alloc with
  | nil => simp
  | cons entry rest ih =>
    obtain ⟨next, first, later⟩ := Option.bind_eq_some_iff.mp ran
    exact List.forall_mem_cons.mpr ⟨mapEntry_ends first, ih later⟩

theorem mapped_fixed (alloc : Allocator) (memmap : List MmapEntry) :
    (mapped alloc memmap).memoryBitmap.size = alloc.memoryBitmap.size ∧
      (mapped alloc memmap).isInitialized = alloc.isInitialized ∧
      (mapped alloc memmap).usedMemory = alloc.usedMemory := by
  induction memmap generalizing alloc with
  | nil => exact ⟨rfl, rfl, rfl⟩
  | cons entry rest ih =>
    obtain ⟨size, ready, used⟩ := ih (marked alloc entry)
    exact ⟨size.trans (markFrom_size ..), ready, used⟩

/-- A cleared bitmap ends with the pages the map calls usable. -/
theorem mapped_free {memmap : List MmapEntry} (low : ∀ entry ∈ memmap, Low entry)
    (bound : index < 2 ^ 52) (cleared : ∀ other, ¬ Free alloc other) :
    Free (mapped alloc memmap) index ↔ usable memmap index = true := by
  have walk : ∀ (memmap : List MmapEntry) (alloc : Allocator) (bit : Bool),
      (∀ entry ∈ memmap, Low entry) → (Free alloc index ↔ bit = true) → (Free (mapped alloc memmap) index ↔
          memmap.foldl (fun bit entry => if Marks entry index then isUsable entry else bit) bit = true) := by
    intro memmap
    induction memmap with
    | nil => exact fun _ _ _ same => same
    | cons entry rest ih =>
      intro alloc bit low same
      simp only [List.forall_mem_cons] at low
      apply ih (marked alloc entry) _ low.2
      rw [marked_get low.1 _ bound]
      by_cases inside : Marks entry index
      · simp only [if_pos inside]
      · simp only [if_neg inside, same]
  exact walk memmap alloc false low (by simp [cleared])

end LunaOS.MemoryMap
