import LunaOS.BitmapAllocator

/-! Frames are lent to one holder at a time. The laws of a frame allocator say
what it draws from and who holds what; the bitmap keeps them with the pages of
the usable entries, less its own, as its reserve. -/
namespace LunaOS.FrameExclusivity
open ByteMemory BoundedLoop PageArithmetic PageTables BitmapAllocator BitVec Option

/-- A frame allocator with what it lends from and which frames are out. -/
structure LawfulAllocator (σ : Type) extends FrameAllocator σ where
  reserve : Addr → Prop
  held : σ → Addr → Prop
  sound : σ → Prop
  aligned : ∀ frame, reserve frame → frame.toNat % 4096 = 0
  drawn : ∀ frames, sound frames → (allocatePage frames).1 ≠ 0 →
    reserve (allocatePage frames).1 ∧ ¬ held frames (allocatePage frames).1
  taken : ∀ frames, sound frames → (allocatePage frames).1 ≠ 0 → ∀ other,
    held (allocatePage frames).2 other ↔ held frames other ∨ other = (allocatePage frames).1
  exhausted : ∀ frames, sound frames → (allocatePage frames).1 = 0 → ∀ other,
    held (allocatePage frames).2 other ↔ held frames other
  freed : ∀ frames frame, sound frames → held frames frame → ∀ other,
    held (freePage frames frame) other ↔ held frames other ∧ other ≠ frame
  drawn_sound : ∀ frames, sound frames → sound (allocatePage frames).2
  freed_sound : ∀ frames frame, sound frames → held frames frame → sound (freePage frames frame)

instance : Coe (LawfulAllocator σ) (FrameAllocator σ) := ⟨LawfulAllocator.toFrameAllocator⟩

/-- A frame that was drawn was free, and is held beside the others. -/
theorem LawfulAllocator.draw_spec (alloc : LawfulAllocator σ) (sound : alloc.sound frames) (nonzero : frame ≠ 0)
    (drawn : alloc.allocatePage frames = (frame, after)) : alloc.sound after ∧ ¬ alloc.held frames frame ∧
      ∀ other, alloc.held after other ↔ alloc.held frames other ∨ other = frame := by
  have found : (alloc.allocatePage frames).1 ≠ 0 := by rw [drawn]; exact nonzero
  have keeps := alloc.drawn_sound _ sound
  have free := (alloc.drawn _ sound found).2
  have taken := alloc.taken _ sound found
  rw [drawn] at keeps free taken
  exact ⟨keeps, free, taken⟩

/-! ## Runs of requests -/

/-- The allocator and the frames its callers hold. -/
structure Ledger (σ : Type) where
  frames : σ
  lent : List Addr

inductive FrameRequest where
  | allocatePage
  | freePage (frame : Addr)

section Runs
variable {σ : Type}

def serve (alloc : FrameAllocator σ) (ledger : Ledger σ) : FrameRequest → Ledger σ
  | .allocatePage =>
    let (frame, frames) := alloc.allocatePage ledger.frames
    ⟨frames, if frame = 0 then ledger.lent else frame :: ledger.lent⟩
  | .freePage frame => ⟨alloc.freePage ledger.frames frame, ledger.lent.erase frame⟩

def serveAll (alloc : FrameAllocator σ) (ledger : Ledger σ) (requests : List FrameRequest) : Ledger σ :=
  requests.foldl (serve alloc) ledger

/-- Only held frames are given back. -/
def Admissible (ledger : Ledger σ) : FrameRequest → Prop
  | .allocatePage => True
  | .freePage frame => frame ∈ ledger.lent

instance (ledger : Ledger σ) : (request : FrameRequest) → Decidable (Admissible ledger request)
  | .allocatePage => inferInstanceAs (Decidable True)
  | .freePage frame => inferInstanceAs (Decidable (frame ∈ ledger.lent))

def AdmissibleRun (alloc : FrameAllocator σ) : Ledger σ → List FrameRequest → Prop
  | _, [] => True
  | ledger, request :: rest =>
    Admissible ledger request ∧ AdmissibleRun alloc (serve alloc ledger request) rest

/-- The ledger agrees with what the allocator counts as held. -/
structure Balanced (alloc : LawfulAllocator σ) (ledger : Ledger σ) : Prop where
  sound : alloc.sound ledger.frames
  distinct : ledger.lent.Nodup
  held : ∀ frame ∈ ledger.lent, alloc.held ledger.frames frame

variable {alloc : LawfulAllocator σ} {ledger : Ledger σ}

theorem serve_balanced (balanced : Balanced alloc ledger) {request : FrameRequest}
    (admissible : Admissible ledger request) : Balanced alloc (serve alloc ledger request) := by
  obtain ⟨sound, distinct, held⟩ := balanced
  cases request with
  | allocatePage =>
    have keeps := alloc.drawn_sound _ sound
    simp only [serve]
    by_cases zero : (alloc.allocatePage ledger.frames).1 = 0
    · rw [if_pos zero]
      exact ⟨keeps, distinct, fun frame lent => (alloc.exhausted _ sound zero frame).mpr (held frame lent)⟩
    · have taken := alloc.taken _ sound zero
      rw [if_neg zero]
      refine ⟨keeps, ?_, ?_⟩
      · exact List.nodup_cons.mpr ⟨fun lent => (alloc.drawn _ sound zero).2 (held _ lent), distinct⟩
      · intro frame lent
        rcases List.mem_cons.mp lent with rfl | lent
        · exact (taken _).mpr (.inr rfl)
        · exact (taken _).mpr (.inl (held frame lent))
  | freePage frame =>
    have freed := alloc.freed _ frame sound (held frame admissible)
    refine ⟨alloc.freed_sound _ frame sound (held frame admissible), distinct.erase frame, ?_⟩
    intro other lent
    obtain ⟨differ, lent⟩ := (List.Nodup.mem_erase_iff distinct).mp lent
    exact (freed other).mpr ⟨held other lent, differ⟩

theorem run_balanced (balanced : Balanced alloc ledger) (admissible : AdmissibleRun alloc ledger requests) :
    Balanced alloc (serveAll alloc ledger requests) := by
  induction requests generalizing ledger with
  | nil => exact balanced
  | cons request rest ih => exact ih (serve_balanced balanced admissible.1) admissible.2

end Runs

/-! ## The bitmap -/

/-- Within the scanned part, set bits stand for pages of the pool. -/
structure Lends (pool : BitVec 64 → Prop) (alloc : Allocator) : Prop where
  ready : alloc.isInitialized = true
  bounded : alloc.memoryBitmap.size.toNat ≤ 2 ^ 52
  free : ∀ index, index < alloc.memoryBitmap.size → alloc.memoryBitmap.get index = true → pool index

/-- A page of the pool, other than page zero. -/
structure Pooled (pool : BitVec 64 → Prop) (frame : Addr) : Prop where
  nonzero : frame ≠ 0
  page : frame = frame / pageSize * pageSize
  pooled : pool (frame / pageSize)

/-- A page of the pool that is out of the bitmap. -/
def Out (pool : BitVec 64 → Prop) (alloc : Allocator) (frame : Addr) : Prop :=
  Pooled pool frame ∧ alloc.memoryBitmap.get (frame / pageSize) = false

section Bitmap
variable {pool : BitVec 64 → Prop} {alloc : Allocator}

theorem page_ext {first second : Addr} (left : first = first / pageSize * pageSize)
    (right : second = second / pageSize * pageSize) (same : first / pageSize = second / pageSize) :
    first = second := by
  rw [left, right, same]

theorem page_aligned {frame : Addr} (page : frame = frame / pageSize * pageSize) : frame.toNat % 4096 = 0 := by
  have value := congrArg BitVec.toNat page
  rw [toNat_mul, toNat_udiv, pageSize_toNat] at value
  omega

theorem zero_page : (0 : Addr) / pageSize = 0 := rfl

section Lending
variable (lends : Lends pool alloc)
include lends

theorem allocatePage_draws (found : (allocatePage alloc).1 ≠ 0) : Pooled pool (allocatePage alloc).1 ∧
      alloc.memoryBitmap.get ((allocatePage alloc).1 / pageSize) = true := by
  rcases nextBlock_cases alloc lends.bounded with zero | ⟨set, page, inside⟩
  · exact absurd zero found
  · exact ⟨⟨found, page, lends.free _ inside set⟩, set⟩

theorem allocatePage_lends : Lends pool (allocatePage alloc).2 := by
  obtain ⟨ready, size, _⟩ := lockBlock_fixed alloc (nextBlock alloc)
  refine ⟨ready.trans lends.ready, by rw [allocatePage, size]; exact lends.bounded, ?_⟩
  intro index inside set
  rw [allocatePage, size] at inside
  rw [allocatePage, lockBlock_get lends.ready] at set
  split at set
  · cases set
  · exact lends.free index inside set

theorem freePage_lends (pooled : pool (frame / pageSize)) : Lends pool (freePage alloc frame) := by
  obtain ⟨ready, size, _⟩ := freeBlock_fixed alloc frame
  refine ⟨ready.trans lends.ready, by rw [freePage, size]; exact lends.bounded, ?_⟩
  intro index inside set
  rw [freePage, size] at inside
  rw [freePage, freeBlock_get lends.ready] at set
  split at set
  · rename_i here
    rw [here]
    exact pooled
  · exact lends.free index inside set

theorem allocatePage_out (found : (allocatePage alloc).1 ≠ 0) (other : Addr) : Out pool (allocatePage alloc).2 other ↔
      Out pool alloc other ∨ other = (allocatePage alloc).1 := by
  obtain ⟨pooled, set⟩ := allocatePage_draws lends found
  have view : ∀ index, (allocatePage alloc).2.memoryBitmap.get index =
      if index = (allocatePage alloc).1 / pageSize then false else alloc.memoryBitmap.get index :=
    lockBlock_get lends.ready _
  rw [Out, Out, view]
  constructor
  · rintro ⟨own, clear⟩
    split at clear
    · rename_i here
      exact .inr (page_ext own.page pooled.page here)
    · exact .inl ⟨own, clear⟩
  · rintro (⟨own, clear⟩ | rfl)
    · exact ⟨own, by split; rfl; exact clear⟩
    · exact ⟨pooled, by rw [if_pos rfl]⟩

theorem allocatePage_null (null : (allocatePage alloc).1 = 0)
    (other : Addr) : Out pool (allocatePage alloc).2 other ↔ Out pool alloc other := by
  refine and_congr_right fun own => ?_
  have apart : other / pageSize ≠ nextBlock alloc / pageSize := by
    intro same
    rw [show nextBlock alloc = 0 from null, zero_page] at same
    exact own.nonzero (by rw [own.page, same]; rfl)
  rw [allocatePage, lockBlock_get lends.ready, if_neg apart]

theorem freePage_out (held : Out pool alloc frame) (other : Addr) :
    Out pool (freePage alloc frame) other ↔ Out pool alloc other ∧ other ≠ frame := by
  rw [Out, Out, freePage, freeBlock_get lends.ready]
  constructor
  · rintro ⟨own, clear⟩
    split at clear
    · cases clear
    · rename_i apart
      exact ⟨⟨own, clear⟩, fun same => apart (by rw [same])⟩
  · rintro ⟨⟨own, clear⟩, differ⟩
    refine ⟨own, ?_⟩
    rw [if_neg (fun same => differ (page_ext own.page held.1.page same))]
    exact clear

end Lending

/-- The bitmap keeps the laws over its pool. -/
def bitmapLaws (pool : BitVec 64 → Prop) : LawfulAllocator Allocator where
  toFrameAllocator := physicalAllocator
  reserve := Pooled pool
  held := Out pool
  sound := Lends pool
  aligned _ pooled := page_aligned pooled.page
  drawn _ lends found := by
    obtain ⟨pooled, set⟩ := allocatePage_draws lends found
    exact ⟨pooled, fun held => Bool.false_ne_true (held.2.symm.trans set)⟩
  taken _ lends found := allocatePage_out lends found
  exhausted _ lends null := allocatePage_null lends null
  freed _ _ lends held := freePage_out lends held
  drawn_sound _ lends := allocatePage_lends lends
  freed_sound _ _ lends held := freePage_lends lends held.1.pooled

end Bitmap

/-! ## The start -/

/-- The pages an entry marks. -/
def Spans (entry : MmapEntry) (index : BitVec 64) : Prop :=
  ∃ pageAddr, pageAddr.toNat % 4096 = 0 ∧ pageAddr < entry.length ∧ index = (entry.base + pageAddr) / pageSize

/-- The pages of the usable entries. -/
def Usable (memmap : List MmapEntry) (index : BitVec 64) : Prop :=
  ∃ entry ∈ memmap, entry.type = stivale2MmapUsable ∧ Spans entry index

/-- The pages the bitmap locks for itself. -/
def Own (place : BitVec 64) (size index : BitVec 64) : Prop :=
  ∃ i < (alignPageUp size / pageSize + 1).toNat, index = (place + BitVec.ofNat 64 i * pageSize) / pageSize

theorem page_step {pageAddr : BitVec 64} (page : pageAddr.toNat % 4096 = 0) :
    (pageAddr + pageSize).toNat % 4096 = 0 := by
  rw [toNat_add, pageSize_toNat]
  omega

/-- The loop over the pages of an entry sets bits of that entry only. -/
theorem marks_entry (returned : iterate (markTurn entry status) turns (bitmap, 0) = some marked) :
    marked.size = bitmap.size ∧ ∀ index, marked.get index = true →
      bitmap.get index = true ∨ status = true ∧ Spans entry index := by
  let holds : Bitmap × BitVec 64 → Prop := fun state =>
    state.2.toNat % 4096 = 0 ∧ state.1.size = bitmap.size ∧ ∀ index, state.1.get index = true →
      bitmap.get index = true ∨ status = true ∧ Spans entry index
  have kept : ∀ state next, holds state → markTurn entry status state = .again next → holds next := by
    rintro ⟨current, pageAddr⟩ next ⟨page, size, bits⟩ asked
    simp only [markTurn] at asked
    split at asked
    · rename_i inside
      cases asked
      refine ⟨page_step page, size, ?_⟩
      intro index set
      rw [Bitmap.get_set] at set
      split at set
      · rename_i here
        exact .inr ⟨set, pageAddr, page, inside, here⟩
      · exact bits index set
    · cases asked
  have start : holds (bitmap, 0) := ⟨rfl, rfl, fun _ set => .inl set⟩
  obtain ⟨⟨last, pageAddr⟩, ⟨_, size, bits⟩, left⟩ := iterate_invariant holds kept start returned
  simp only [markTurn] at left
  split at left
  · cases left
  · cases left
    exact ⟨size, bits⟩

theorem mapEntry_marks (returned : mapEntry alloc entry = some mapped) : mapped.isInitialized = alloc.isInitialized ∧
      mapped.memoryBitmap.size = alloc.memoryBitmap.size ∧ ∀ index, mapped.memoryBitmap.get index = true →
        alloc.memoryBitmap.get index = true ∨ entry.type = stivale2MmapUsable ∧ Spans entry index := by
  simp only [mapEntry, bind_eq_bind, bind_eq_some_iff, pure_def] at returned
  obtain ⟨marked, looped, result⟩ := returned
  cases result
  obtain ⟨size, bits⟩ := marks_entry looped
  refine ⟨rfl, size, ?_⟩
  intro index set
  refine (bits index set).imp_right ?_
  rintro ⟨usable, spans⟩
  exact ⟨by simpa using usable, spans⟩

theorem mapEntries_mark (returned : memmap.foldlM mapEntry alloc = some mapped) :
    mapped.isInitialized = alloc.isInitialized ∧ mapped.memoryBitmap.size = alloc.memoryBitmap.size ∧
      ∀ index, mapped.memoryBitmap.get index = true → alloc.memoryBitmap.get index = true ∨ Usable memmap index := by
  induction memmap generalizing alloc with
  | nil =>
    cases returned
    exact ⟨rfl, rfl, fun _ set => .inl set⟩
  | cons entry rest ih =>
    rw [List.foldlM_cons, bind_eq_bind, bind_eq_some_iff] at returned
    obtain ⟨next, first, returned⟩ := returned
    obtain ⟨firstReady, firstSize, firstBits⟩ := mapEntry_marks first
    obtain ⟨ready, size, bits⟩ := ih returned
    refine ⟨ready.trans firstReady, size.trans firstSize, ?_⟩
    intro index set
    rcases bits index set with set | ⟨other, member, usable, spans⟩
    · refine (firstBits index set).imp_right ?_
      rintro ⟨usable, spans⟩
      exact ⟨entry, List.mem_cons_self, usable, spans⟩
    · exact .inr ⟨other, List.mem_cons_of_mem _ member, usable, spans⟩

theorem lockAll_get (blocks : List Addr) (ready : alloc.isInitialized = true) :
    (blocks.foldl lockBlock alloc).isInitialized = true ∧
      (blocks.foldl lockBlock alloc).memoryBitmap.size = alloc.memoryBitmap.size ∧
      (blocks.foldl lockBlock alloc).memoryBitmap.buffer = alloc.memoryBitmap.buffer ∧
      ∀ index, (blocks.foldl lockBlock alloc).memoryBitmap.get index = true →
        alloc.memoryBitmap.get index = true ∧ ∀ block ∈ blocks, index ≠ block / pageSize := by
  induction blocks generalizing alloc with
  | nil => exact ⟨ready, rfl, rfl, fun _ set => ⟨set, by simp⟩⟩
  | cons block rest ih =>
    obtain ⟨stillReady, size, buffer⟩ := lockBlock_fixed alloc block
    obtain ⟨allReady, allSize, allBuffer, bits⟩ := ih (stillReady.trans ready)
    refine ⟨allReady, allSize.trans size, allBuffer.trans buffer, ?_⟩
    intro index set
    obtain ⟨here, others⟩ := bits index set
    rw [lockBlock_get ready] at here
    split at here
    · cases here
    · rename_i differ
      exact ⟨here, List.forall_mem_cons.mpr ⟨differ, others⟩⟩

/-- The pages an initialised allocator lends from. -/
def Lendable (memmap : List MmapEntry) (bitmap : Bitmap) (index : BitVec 64) : Prop :=
  Usable memmap index ∧ ¬ Own (removeDirectmap bitmap.buffer) bitmap.size index

theorem moveBitmap_lends (ready : alloc.isInitialized = true) (small : size.toNat ≤ 2 ^ 49)
    (usable : ∀ index, alloc.memoryBitmap.get index = true → Usable memmap index) :
    Lends (Lendable memmap (moveBitmap alloc size page beyond).memoryBitmap) (moveBitmap alloc size page beyond) ∧
      (moveBitmap alloc size page beyond).memoryBitmap.size = size ∧
      removeDirectmap (moveBitmap alloc size page beyond).memoryBitmap.buffer = BitVec.ofNat 64 page * pageSize := by
  obtain ⟨allReady, allSize, allBuffer, bits⟩ := lockAll_get (bitmapBlocks size page)
    (show (moved alloc size page beyond).isInitialized = true by simp only [moved, ready])
  refine ⟨⟨allReady, ?_, ?_⟩, allSize, ?_⟩
  · rw [moveBitmap, allSize]
    exact Nat.le_trans small (by decide)
  · intro index inside set
    obtain ⟨set, apart⟩ := bits index set
    rw [moveBitmap, allSize] at inside
    rw [Lendable, moveBitmap, allSize, allBuffer]
    constructor
    · refine usable index ?_
      have low : index / 8 < size := by
        rw [lt_def] at inside ⊢
        exact Nat.lt_of_le_of_lt (Nat.div_le_self _ _) inside
      have copied : (moved alloc size page beyond).memoryBitmap.bytes (index / 8) =
          alloc.memoryBitmap.bytes (index / 8) := if_pos low
      rw [Bitmap.get_eq] at set ⊢
      rw [← copied]
      exact set
    · rintro ⟨i, bound, own⟩
      exact apart _ (List.mem_map.mpr ⟨i, List.mem_range.mpr bound, rfl⟩) own
  · rw [moveBitmap, allBuffer]
    exact BitVec.add_sub_cancel _ _

theorem initialize_lends (returned : initializeAllocator constructed memmap tempArr beyond = some alloc) :
    Lends (Lendable memmap alloc.memoryBitmap) alloc ∧ alloc.memoryBitmap.size.toNat ≤ 2 ^ 49 ∧
      ∃ page < 2 ^ 49, removeDirectmap alloc.memoryBitmap.buffer = BitVec.ofNat 64 page * pageSize := by
  simp only [initializeAllocator, constructed, Bool.false_eq_true, if_false, bind_eq_bind,
    bind_eq_some_iff, pure_def, Option.some.injEq] at returned
  obtain ⟨mapped, marked, page, placed, rfl⟩ := returned
  obtain ⟨ready, size, bits⟩ := mapEntries_mark marked
  have bounded := bitmapSize_le memmap
  have inside := List.mem_range.mp (List.mem_of_find?_eq_some placed)
  have usable : ∀ index, mapped.memoryBitmap.get index = true → Usable memmap index := by
    intro index set
    refine (bits index set).resolve_left ?_
    rw [Bitmap.get_eq]
    exact ne_true_of_eq_false getLsbD_zero
  obtain ⟨lends, newSize, buffer⟩ := moveBitmap_lends ready bounded usable
  refine ⟨lends, by rw [newSize]; exact bounded, page, ?_, buffer⟩
  rw [size] at inside
  exact Nat.lt_of_lt_of_le inside bounded

/-! ## Exclusive frames -/

def MmapEntry.Contains (entry : MmapEntry) (address : Addr) : Prop :=
  (address - entry.base).toNat < entry.length.toNat

/-- The physical bytes a bitmap is stored in. -/
def Stored (bitmap : Bitmap) (address : Addr) : Prop :=
  (address - removeDirectmap bitmap.buffer).toNat < bitmap.size.toNat

/-- Usable entries are page aligned. -/
def UsableAligned (memmap : List MmapEntry) : Prop :=
  ∀ entry ∈ memmap, entry.type = stivale2MmapUsable → entry.base.toNat % 4096 = 0 ∧ entry.length.toNat % 4096 = 0

/-- A page marked by an aligned entry lies inside it. -/
theorem spans_contains (aligned : entry.base.toNat % 4096 = 0 ∧ entry.length.toNat % 4096 = 0)
    (page : frame = frame / pageSize * pageSize) (spans : Spans entry (frame / pageSize))
    (offset : BitVec 64) (inside : offset.toNat < 4096) : MmapEntry.Contains entry (frame + offset) := by
  obtain ⟨pageAddr, whole, below, index⟩ := spans
  have sum : (entry.base + pageAddr).toNat % 4096 = 0 := by
    rw [toNat_add]
    omega
  have same : frame = entry.base + pageAddr := by
    refine eq_of_toNat_eq ?_
    rw [page, index, toNat_mul, toNat_udiv, pageSize_toNat]
    omega
  rw [lt_def] at below
  have distance : frame + offset - entry.base = pageAddr + offset := by
    rw [same, BitVec.add_assoc]
    exact add_sub_self ..
  rw [MmapEntry.Contains, distance, toNat_add]
  omega

/-- A page none of the bitmap's own holds no byte of it. -/
theorem own_stored (small : bitmap.size.toNat ≤ 2 ^ 49) (low : place < 2 ^ 49)
    (buffer : removeDirectmap bitmap.buffer = BitVec.ofNat 64 place * pageSize)
    (page : frame = frame / pageSize * pageSize)
    (apart : ¬ Own (removeDirectmap bitmap.buffer) bitmap.size (frame / pageSize))
    (offset : BitVec 64) (inside : offset.toNat < 4096) : ¬ Stored bitmap (frame + offset) := by
  intro stored
  rw [Stored] at stored
  have start : (removeDirectmap bitmap.buffer).toNat = place * 4096 := by
    rw [buffer, toNat_mul, pageSize_toNat, toNat_ofNat]
    omega
  have whole := page_aligned page
  have sum : (frame + offset).toNat = frame.toNat + offset.toNat := by
    rw [toNat_add]
    omega
  have pages : (alignPageUp bitmap.size / pageSize + 1).toNat = (bitmap.size.toNat + 4095) / 4096 + 1 := by
    rw [toNat_add, toNat_udiv, pageSize_toNat, alignPageUp_toNat (by omega), show (1 : BitVec 64).toNat = 1 from rfl]
    omega
  generalize distanceDef : frame + offset - removeDirectmap bitmap.buffer = distance at stored
  have reached : frame.toNat + offset.toNat = place * 4096 + distance.toNat := by
    have value := congrArg BitVec.toNat (show frame + offset = removeDirectmap bitmap.buffer + distance by
      rw [← distanceDef]; bv_omega)
    rw [sum, toNat_add, start] at value
    omega
  refine apart ⟨distance.toNat / 4096, by rw [pages]; omega, eq_of_toNat_eq ?_⟩
  rw [toNat_udiv, toNat_udiv, toNat_add, toNat_mul, start, pageSize_toNat, toNat_ofNat]
  omega

/-- Once initialised, whatever has been drawn and given back, the next frame is a
whole page of a usable entry, none of the bitmap's, and in no one's hands. -/
theorem frames_exclusive {memmap : List MmapEntry} {tempArr : Addr} {beyond : Addr → Byte} {alloc : Allocator}
    (aligned : UsableAligned memmap)
    (initialized : initializeAllocator constructed memmap tempArr beyond = some alloc)
    (requests : List FrameRequest) (admissible : AdmissibleRun physicalAllocator ⟨alloc, []⟩ requests) :
    let ledger := serveAll physicalAllocator ⟨alloc, []⟩ requests
    let frame := (allocatePage ledger.frames).1
    frame ≠ 0 → frame.toNat % 4096 = 0 ∧ (∃ entry ∈ memmap, entry.type = stivale2MmapUsable ∧
        ∀ offset : BitVec 64, offset.toNat < 4096 → MmapEntry.Contains entry (frame + offset)) ∧
      (∀ offset : BitVec 64, offset.toNat < 4096 → ¬ Stored alloc.memoryBitmap (frame + offset)) ∧
      frame ∉ ledger.lent := by
  intro ledger frame found
  obtain ⟨lends, small, place, low, buffer⟩ := initialize_lends initialized
  have start : Balanced (bitmapLaws (Lendable memmap alloc.memoryBitmap)) ⟨alloc, []⟩ :=
    ⟨lends, List.nodup_nil, by simp⟩
  have balanced := run_balanced start admissible
  obtain ⟨⟨_, page, usable, apart⟩, set⟩ := allocatePage_draws balanced.sound found
  obtain ⟨entry, member, type, spans⟩ := usable
  refine ⟨page_aligned page, ⟨entry, member, type, spans_contains (aligned entry member type) page spans⟩,
    own_stored small low buffer page apart, ?_⟩
  intro lent
  exact Bool.false_ne_true ((balanced.held _ lent).2.symm.trans set)

/-- A machine of 96 usable pages: the bitmap takes pages 0 and 1. -/
def smallMemmap : List MmapEntry := [⟨0, 0x60000, stivale2MmapUsable⟩]

/-- The same machine with its memory reserved from `usable` on. -/
def scarceMemmap (usable : BitVec 64) : List MmapEntry :=
  [⟨0, usable, stivale2MmapUsable⟩, ⟨usable, 0x60000 - usable, 2⟩]

theorem small_returns : (initializeAllocator constructed smallMemmap 0 fun _ => 0).isSome = true := by
  decide +kernel

def smallAllocator : Allocator := (initializeAllocator constructed smallMemmap 0 fun _ => 0).get small_returns

theorem small_initialized : initializeAllocator constructed smallMemmap 0 (fun _ => 0) = some smallAllocator :=
  eq_some_of_isSome small_returns

theorem small_aligned : UsableAligned smallMemmap := by
  intro entry member _
  cases List.mem_singleton.mp member
  decide

theorem small_pool (pooled : Pooled (Lendable smallMemmap smallAllocator.memoryBitmap) frame) :
    frame.toNat < 0x60000 := by
  obtain ⟨entry, member, type, spans⟩ := pooled.pooled.1
  cases List.mem_singleton.mp member
  have inside := spans_contains (small_aligned _ member type) pooled.page spans 0 (by decide)
  rw [MmapEntry.Contains] at inside
  have same : frame + 0 - 0 = frame := by bv_omega
  rw [same] at inside
  exact inside

theorem frames_exclusive_recycled : let requests := [.allocatePage, .allocatePage, .freePage 0x2000]
    let ledger := serveAll physicalAllocator ⟨smallAllocator, []⟩ requests
    AdmissibleRun physicalAllocator ⟨smallAllocator, []⟩ requests ∧ (allocatePage ledger.frames).1 = 0x2000 ∧
      (∀ offset : BitVec 64, offset.toNat < 4096 → ¬ Stored smallAllocator.memoryBitmap (0x2000 + offset)) ∧
      0x2000 ∉ ledger.lent := by
  intro requests ledger
  have admissible : AdmissibleRun physicalAllocator ⟨smallAllocator, []⟩ requests :=
    ⟨trivial, trivial, by decide +kernel, trivial⟩
  have frame : (allocatePage ledger.frames).1 = 0x2000 := by decide +kernel
  obtain ⟨_, _, apart, free⟩ := frames_exclusive small_aligned small_initialized requests admissible
    (by rw [frame]; decide)
  rw [frame] at apart free
  exact ⟨admissible, frame, apart, free⟩

end LunaOS.FrameExclusivity
