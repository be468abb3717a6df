import Mathlib.Data.Finset.Card
import Mathlib.Order.Interval.Finset.Nat
import LunaOS.BitmapBounds

/-! The counters of the physical allocator against its bitmap. `initialize` adds lengths
and every later change goes with a bit that turns, so on a map of whole and disjoint pages
the counters count bits: the free pages, and the pages locked and not freed. -/
namespace LunaOS.MemoryAccounting
open BitVec hiding not_or
open BitmapAllocator FrameSearch MemoryMap BitmapBounds PageArithmetic PageTables ByteMemory

/-- The address is one of the entry's. -/
def Covers (entry : MmapEntry) (address : Nat) : Prop :=
  entry.base.toNat ≤ address ∧ address < entry.base.toNat + entry.length.toNat

/-- No address is in both entries. -/
def Disjoint (first second : MmapEntry) : Prop := ∀ address, ¬ (Covers first address ∧ Covers second address)

/-- Usable entries are made of whole pages that no other entry reaches into, and all
pages have a bit. -/
structure Regular (memmap : List MmapEntry) : Prop where
  aligned : ∀ entry ∈ memmap, isUsable entry = true → entry.base.toNat % 4096 = 0 ∧ entry.length.toNat % 4096 = 0
  disjoint : memmap.Pairwise fun first second =>
    isUsable first = true ∨ isUsable second = true → Disjoint first second
  fits : ∀ entry ∈ memmap, Fits (bitmapSize memmap).toNat entry

/-- The pages whose bits are set. -/
def freePages (alloc : Allocator) : Finset Nat :=
  (Finset.range (8 * alloc.memoryBitmap.size.toNat)).filter (Free alloc)

theorem mem_freePages {alloc : Allocator} : index ∈ freePages alloc ↔ Described alloc index ∧ Free alloc index := by
  rw [freePages, Finset.mem_filter, Finset.mem_range]
  rfl

/-! ## The entries -/

section Entries
variable {first second entry : MmapEntry} {alloc : Allocator}

/-- A page the loop marks holds a byte of the entry. -/
theorem marks_covers (marks : Marks entry index) : ∃ address, address / 4096 = index ∧ Covers entry address := by
  obtain ⟨above, below⟩ := marks
  unfold firstPage at above below
  unfold pageCount at below
  exact ⟨entry.base.toNat + 4096 * (index - entry.base.toNat / 4096), by omega, by omega, by omega⟩

theorem marks_apart (whole : first.base.toNat % 4096 = 0 ∧ first.length.toNat % 4096 = 0)
    (apart : Disjoint first second) (marks : Marks first index) : ¬ Marks second index := by
  intro other
  obtain ⟨address, page, covers⟩ := marks_covers other
  obtain ⟨above, below⟩ := marks
  unfold firstPage at above below
  unfold pageCount at below
  exact apart address ⟨⟨by omega, by omega⟩, covers⟩

theorem fits_low (small : size ≤ 2 ^ 49) (fits : Fits size entry) : Low entry := by
  unfold Low
  by_contra high
  have first : firstPage entry < 2 ^ 52 := by
    unfold firstPage
    omega
  have last := fits (2 ^ 52) ⟨by omega, by omega⟩
  omega

section Marking
variable (low : Low entry) (fits : Fits alloc.memoryBitmap.size.toNat entry)
  (small : alloc.memoryBitmap.size.toNat ≤ 2 ^ 49)
include low fits small

/-- Whether a page is free after the entry. -/
theorem mem_marked : index ∈ freePages (marked alloc entry) ↔
      if Marks entry index then isUsable entry = true else index ∈ freePages alloc := by
  rw [mem_freePages, mem_freePages]
  unfold Described
  rw [marked_size]
  constructor
  · rintro ⟨described, free⟩
    rw [marked_get low _ (by omega)] at free
    by_cases inside : Marks entry index
    · rw [if_pos inside] at free ⊢
      exact free
    · rw [if_neg inside] at free ⊢
      exact ⟨described, free⟩
  · intro free
    by_cases inside : Marks entry index
    · have described := fits index inside
      refine ⟨by omega, ?_⟩
      rw [marked_get low _ (by omega), if_pos inside]
      rwa [if_pos inside] at free
    · rw [if_neg inside] at free
      refine ⟨free.1, ?_⟩
      rw [marked_get low _ (by omega), if_neg inside]
      exact free.2

/-- The pages of the entry are all counted, if it is usable, and none of them was. -/
theorem card_marked (clear : ∀ index, Marks entry index → index ∉ freePages alloc) :
    (freePages (marked alloc entry)).card =
      (freePages alloc).card + if isUsable entry = true then pageCount entry else 0 := by
  by_cases usable : isUsable entry = true
  · have pages : freePages (marked alloc entry) =
        freePages alloc ∪ Finset.Ico (firstPage entry) (firstPage entry + pageCount entry) := by
      ext index
      rw [mem_marked low fits small, Finset.mem_union, Finset.mem_Ico]
      by_cases inside : Marks entry index
      · simp [if_pos inside, usable, show firstPage entry ≤ index ∧ _ from inside]
      · simp [if_neg inside, show ¬ (firstPage entry ≤ index ∧ _) from inside]
    rw [pages, Finset.card_union_of_disjoint, Nat.card_Ico, if_pos usable, Nat.add_sub_cancel_left]
    rw [Finset.disjoint_right]
    intro index inside
    exact clear index (Finset.mem_Ico.mp inside)
  · have pages : freePages (marked alloc entry) = freePages alloc := by
      ext index
      rw [mem_marked low fits small]
      by_cases inside : Marks entry index
      · simp [usable, clear index inside]
      · rw [if_neg inside]
    rw [pages, if_neg usable, Nat.add_zero]

end Marking

/-- The counter holds the bytes of the free pages, up to the width of a word. -/
def Counted (alloc : Allocator) : Prop :=
  alloc.freeMemory = BitVec.ofNat 64 (4096 * (freePages alloc).card)

theorem marked_counted (low : Low entry) (fits : Fits alloc.memoryBitmap.size.toNat entry)
    (small : alloc.memoryBitmap.size.toNat ≤ 2 ^ 49) (clear : ∀ index, Marks entry index → index ∉ freePages alloc)
    (whole : isUsable entry = true → entry.length.toNat % 4096 = 0) (counted : Counted alloc) :
    Counted (marked alloc entry) := by
  unfold Counted at counted ⊢
  rw [card_marked low fits small clear, marked, counted]
  by_cases usable : isUsable entry = true
  · have length : entry.length = BitVec.ofNat 64 (4096 * pageCount entry) := by
      have multiple := whole usable
      apply eq_of_toNat_eq
      rw [toNat_ofNat, pageCount]
      omega
    rw [if_pos usable, if_pos usable, Nat.mul_add, ofNat_add, ← length]
  · simp [usable]

end Entries

/-- By induction over the entries: those still to come have no free page yet. -/
theorem mapped_counted {memmap : List MmapEntry} {alloc : Allocator} (small : alloc.memoryBitmap.size.toNat ≤ 2 ^ 49)
    (aligned : ∀ entry ∈ memmap, isUsable entry = true → entry.base.toNat % 4096 = 0 ∧ entry.length.toNat % 4096 = 0)
    (disjoint : memmap.Pairwise fun first second =>
      isUsable first = true ∨ isUsable second = true → Disjoint first second)
    (fits : ∀ entry ∈ memmap, Fits alloc.memoryBitmap.size.toNat entry)
    (clear : ∀ entry ∈ memmap, ∀ index, Marks entry index → index ∉ freePages alloc)
    (counted : Counted alloc) : Counted (mapped alloc memmap) := by
  induction memmap generalizing alloc with
  | nil => exact counted
  | cons entry rest ih =>
    have size := marked_size alloc entry
    rw [List.pairwise_cons] at disjoint
    simp only [List.forall_mem_cons] at aligned fits clear
    have low := fits_low small fits.1
    refine ih (by rwa [size]) aligned.2 disjoint.2 (by rw [size]; exact fits.2) ?_
      (marked_counted low fits.1 small clear.1 (fun usable => (aligned.1 usable).2) counted)
    intro later member index marks free
    rw [mem_marked low fits.1 small] at free
    by_cases inside : Marks entry index
    · rw [if_pos inside] at free
      exact marks_apart (aligned.1 free) (disjoint.1 later member (.inl free)) inside marks
    · rw [if_neg inside] at free
      exact clear.2 later member index marks free

/-- What the entries add to the counters is the memory counted before. -/
theorem mapped_total (alloc : Allocator) (memmap : List MmapEntry) :
    (mapped alloc memmap).freeMemory + (mapped alloc memmap).reservedMemory =
      memmap.foldl (fun memorySize entry => memorySize + entry.length) (alloc.freeMemory + alloc.reservedMemory) := by
  induction memmap generalizing alloc with
  | nil => rfl
  | cons entry rest ih =>
    refine (ih (marked alloc entry)).trans ?_
    rw [List.foldl_cons]
    congr 1
    rw [marked]
    cases isUsable entry <;> simp <;> ac_rfl

theorem mapped_reserved {memmap : List MmapEntry} {alloc : Allocator}
    (none : ∀ entry ∈ memmap, isUsable entry = false → entry.length = 0) :
    (mapped alloc memmap).reservedMemory = alloc.reservedMemory := by
  induction memmap generalizing alloc with
  | nil => rfl
  | cons entry rest ih =>
    rw [List.forall_mem_cons] at none
    refine (ih none.2).trans ?_
    rw [marked]
    cases usable : isUsable entry with
    | true => simp
    | false => simp [none.1 usable]

theorem usable_marked {memmap : List MmapEntry} (set : usable memmap index = true) :
    ∃ entry ∈ memmap, isUsable entry = true ∧ Marks entry index := by
  have walk : ∀ (memmap : List MmapEntry) (bit : Bool),
      memmap.foldl (fun bit entry => if Marks entry index then isUsable entry else bit) bit = true →
        bit = true ∨ ∃ entry ∈ memmap, isUsable entry = true ∧ Marks entry index := by
    intro memmap
    induction memmap with
    | nil => exact fun _ set => .inl set
    | cons entry rest ih =>
      intro bit set
      rcases ih _ set with here | ⟨later, member, found⟩
      · by_cases inside : Marks entry index
        · simp only [if_pos inside] at here
          exact .inr ⟨entry, List.mem_cons_self, here, inside⟩
        · simp only [if_neg inside] at here
          exact .inl here
      · exact .inr ⟨later, List.mem_cons_of_mem _ member, found⟩
  rcases walk memmap false set with absurd | found
  · cases absurd
  · exact found

section Map
variable {memmap : List MmapEntry} {tempArr : Addr}

theorem Regular.low (regular : Regular memmap) : ∀ entry ∈ memmap, Low entry :=
  fun entry member => fits_low (bitmapSize_le memmap) (regular.fits entry member)

theorem map_counted (regular : Regular memmap) : Counted (mapped (started memmap tempArr) memmap) := by
  have none : freePages (started memmap tempArr) = ∅ := by
    ext index
    simp [mem_freePages, started_clear]
  apply mapped_counted (bitmapSize_le memmap) regular.aligned regular.disjoint regular.fits
  · simp [none]
  · rw [Counted, none]
    rfl

/-- The pages are never as many as the address space has: the lengths would wrap to 0 and
leave no bitmap. -/
theorem map_small (regular : Regular memmap) :
    (freePages (mapped (started memmap tempArr) memmap)).card < 2 ^ 52 := by
  have small := bitmapSize_le memmap
  have size : (mapped (started memmap tempArr) memmap).memoryBitmap.size = bitmapSize memmap := mapped_size
  have within : freePages (mapped (started memmap tempArr) memmap) ⊆ Finset.range (8 * (bitmapSize memmap).toNat) := by
    rw [← size]
    exact Finset.filter_subset ..
  have few := Finset.card_le_card within
  rw [Finset.card_range] at few
  by_contra full
  have all : freePages (mapped (started memmap tempArr) memmap) = Finset.range (8 * (bitmapSize memmap).toNat) :=
    Finset.eq_of_subset_of_card_le within (by rw [Finset.card_range]; omega)
  have empty : ∀ entry ∈ memmap, isUsable entry = false → entry.length = 0 := by
    intro entry member reserved
    by_contra nonzero
    have pos : 0 < entry.length.toNat := Nat.pos_of_ne_zero fun zero => nonzero (eq_of_toNat_eq zero)
    have marks : Marks entry (firstPage entry) := by
      refine ⟨Nat.le_refl _, ?_⟩
      unfold pageCount
      omega
    have bound := (marks_small (regular.low entry member)).2 _ marks
    have free : firstPage entry ∈ freePages (mapped (started memmap tempArr) memmap) := by
      rw [all, Finset.mem_range]
      omega
    obtain ⟨other, listed, usable, reaches⟩ :=
      usable_marked ((mapped_free regular.low bound started_clear).mp (mem_freePages.mp free).2)
    have differ : other ≠ entry := by
      rintro rfl
      rw [usable] at reserved
      cases reserved
    have apart : Disjoint other entry := by
      have either : Std.Symm fun first second : MmapEntry =>
          isUsable first = true ∨ isUsable second = true → Disjoint first second :=
        ⟨fun first second apart usable address both => apart usable.symm address both.symm⟩
      exact regular.disjoint.forall listed member differ (.inl usable)
    exact marks_apart (regular.aligned other listed usable) apart reaches marks
  have total := mapped_total (started memmap tempArr) memmap
  rw [mapped_reserved empty, map_counted regular, show (freePages _).card = 2 ^ 52 by omega] at total
  have zero : countMemory memmap = 0 := by
    exact total.symm.trans rfl
  have none : (bitmapSize memmap).toNat = 0 := by
    rw [bitmapSize, zero]
    decide
  omega

end Map

/-! ## Locked pages -/

/-- The allocator with the pages that were locked and not freed. -/
structure Books where
  alloc : Allocator
  locked : Finset Nat

def pageOf (blockAddr : Addr) : Nat := (blockAddr / pageSize).toNat

/-- `_lockBlock`: a page whose bit is set becomes locked. -/
def Books.lockBlock (books : Books) (blockAddr : Addr) : Books :=
  ⟨BitmapAllocator.lockBlock books.alloc blockAddr,
    if Free books.alloc (pageOf blockAddr) then insert (pageOf blockAddr) books.locked else books.locked⟩

def Books.allocatePage (books : Books) : Books := books.lockBlock (nextBlock books.alloc)

def Books.freePage (books : Books) (blockAddr : Addr) : Books :=
  ⟨BitmapAllocator.freePage books.alloc blockAddr, books.locked.erase (pageOf blockAddr)⟩

/-- Requests, and returns of pages that are held, in any order. -/
inductive Run (books : Books) : Books → Prop where
  | start : Run books books
  | allocate (run : Run books before) : Run books before.allocatePage
  | free (run : Run books before) (blockAddr : Addr) (held : pageOf blockAddr ∈ before.locked) :
      Run books (before.freePage blockAddr)

/-- `BitmapAllocator::initialize`, with the pages it locks. -/
def initializeBooks (memmap : List MmapEntry) (tempArr : Addr) (beyond : Addr → Byte) : Option Books := do
  let mapped ← memmap.foldlM mapEntry (started memmap tempArr)
  let bitmapPage ← bitmapPlace mapped.memoryBitmap
  pure ((bitmapBlocks (bitmapSize memmap) bitmapPage).foldl Books.lockBlock
    ⟨moved mapped (bitmapSize memmap) bitmapPage beyond, ∅⟩)

theorem lockAll_allocator (blocks : List Addr) (books : Books) :
    (blocks.foldl Books.lockBlock books).alloc = blocks.foldl lockBlock books.alloc := by
  induction blocks generalizing books with
  | nil => rfl
  | cons block rest ih => exact ih _

theorem initializeBooks_allocator (memmap : List MmapEntry) (tempArr : Addr) (beyond : Addr → Byte) :
    (initializeBooks memmap tempArr beyond).map Books.alloc =
      initializeAllocator constructed memmap tempArr beyond := by
  rw [initializeAllocator_eq]
  unfold initializeBooks
  cases memmap.foldlM mapEntry (started memmap tempArr) with
  | none => rfl
  | some mapped =>
    simp only [Option.bind_eq_bind, Option.bind_some]
    cases bitmapPlace mapped.memoryBitmap with
    | none => rfl
    | some page => exact congrArg some (lockAll_allocator _ _)

section Blocks
variable {alloc : Allocator}

theorem free_pageOf : Free alloc (pageOf blockAddr) ↔ alloc.memoryBitmap.get (blockAddr / pageSize) = true := by
  rw [Free, pageOf, ofNat_toNat, setWidth_eq]

theorem index_pageOf (small : index < 2 ^ 64) : BitVec.ofNat 64 index = blockAddr / pageSize ↔ index = pageOf blockAddr := by
  rw [← toNat_inj, toNat_ofNat, Nat.mod_eq_of_lt small]
  rfl

section Ready
variable (ready : alloc.isInitialized = true)
include ready

theorem lockBlock_free (small : index < 2 ^ 64) :
    Free (lockBlock alloc blockAddr) index ↔ index ≠ pageOf blockAddr ∧ Free alloc index := by
  simp only [Free, lockBlock_get ready, index_pageOf small]
  by_cases here : index = pageOf blockAddr
  · simp [here]
  · simp [here]

theorem freeBlock_free (small : index < 2 ^ 64) :
    Free (freeBlock alloc blockAddr) index ↔ index = pageOf blockAddr ∨ Free alloc index := by
  simp only [Free, freeBlock_get ready, index_pageOf small]
  by_cases here : index = pageOf blockAddr
  · simp [here]
  · simp [here]

theorem freePages_lock (small : alloc.memoryBitmap.size.toNat ≤ 2 ^ 49)
    (blockAddr : Addr) : freePages (lockBlock alloc blockAddr) = (freePages alloc).erase (pageOf blockAddr) := by
  ext index
  rw [Finset.mem_erase, mem_freePages, mem_freePages]
  unfold Described
  rw [(lockBlock_fixed alloc blockAddr).2.1]
  constructor
  · rintro ⟨described, free⟩
    obtain ⟨away, before⟩ := (lockBlock_free ready (by omega)).mp free
    exact ⟨away, described, before⟩
  · rintro ⟨away, described, free⟩
    exact ⟨described, (lockBlock_free ready (by omega)).mpr ⟨away, free⟩⟩

theorem freePages_free (small : alloc.memoryBitmap.size.toNat ≤ 2 ^ 49)
    (inside : Described alloc (pageOf blockAddr)) :
    freePages (freeBlock alloc blockAddr) = insert (pageOf blockAddr) (freePages alloc) := by
  ext index
  rw [Finset.mem_insert, mem_freePages, mem_freePages]
  unfold Described at inside ⊢
  rw [(freeBlock_fixed alloc blockAddr).2.1]
  constructor
  · rintro ⟨described, free⟩
    rcases (freeBlock_free ready (by omega)).mp free with here | before
    · exact .inl here
    · exact .inr ⟨described, before⟩
  · rintro (rfl | ⟨described, free⟩)
    · exact ⟨inside, (freeBlock_free ready (by omega)).mpr (.inl rfl)⟩
    · exact ⟨described, (freeBlock_free ready (by omega)).mpr (.inr free)⟩

end Ready

theorem lockBlock_total (alloc : Allocator) (blockAddr : Addr) :
    totalMemory (lockBlock alloc blockAddr) = totalMemory alloc := by
  unfold lockBlock totalMemory
  split
  · rfl
  · split
    · grind
    · rfl

theorem freeBlock_total (alloc : Allocator) (blockAddr : Addr) :
    totalMemory (freeBlock alloc blockAddr) = totalMemory alloc := by
  unfold freeBlock totalMemory
  split
  · rfl
  · split
    · grind
    · rfl

/-- Locking a free page moves its bytes from one counter to the other. -/
theorem lockBlock_moves (ready : alloc.isInitialized = true) (free : Free alloc (pageOf blockAddr)) :
    (lockBlock alloc blockAddr).freeMemory = alloc.freeMemory - pageSize ∧
      (lockBlock alloc blockAddr).usedMemory = alloc.usedMemory + pageSize := by
  rw [lockBlock, if_neg (by simp [ready]), if_pos (free_pageOf.mp free)]
  exact ⟨rfl, rfl⟩

theorem lockBlock_kept (locked : ¬ Free alloc (pageOf blockAddr)) : lockBlock alloc blockAddr = alloc := by
  rw [free_pageOf] at locked
  rw [lockBlock, if_neg locked, ite_self]

theorem freeBlock_moves (ready : alloc.isInitialized = true) (locked : ¬ Free alloc (pageOf blockAddr)) :
    (freeBlock alloc blockAddr).freeMemory = alloc.freeMemory + pageSize ∧
      (freeBlock alloc blockAddr).usedMemory = alloc.usedMemory - pageSize := by
  rw [free_pageOf] at locked
  rw [freeBlock, if_neg (by simp [ready]), if_pos (by simpa using locked)]
  exact ⟨rfl, rfl⟩

end Blocks

/-! ## Whole runs -/

/-- The counters agree with the bitmap and with the pages locked. -/
structure Balanced (pages : Nat) (books : Books) : Prop where
  ready : books.alloc.isInitialized = true
  pos : 0 < books.alloc.memoryBitmap.size.toNat
  small : books.alloc.memoryBitmap.size.toNat ≤ 2 ^ 49
  free : Counted books.alloc
  used : books.alloc.usedMemory = BitVec.ofNat 64 (4096 * books.locked.card)
  apart : ∀ index ∈ books.locked, Described books.alloc index ∧ ¬ Free books.alloc index
  all : (freePages books.alloc).card + books.locked.card = pages

section Runs
variable {books : Books}

theorem page_more (count : Nat) : BitVec.ofNat 64 (4096 * (count + 1)) = BitVec.ofNat 64 (4096 * count) + pageSize := by
  rw [Nat.mul_add, ofNat_add]
  rfl

theorem Balanced.lockBlock (balanced : Balanced pages books) (inside : Described books.alloc (pageOf blockAddr)) :
    Balanced pages (books.lockBlock blockAddr) := by
  obtain ⟨ready, pos, small, free, used, apart, all⟩ := balanced
  obtain ⟨still, size, _⟩ := lockBlock_fixed books.alloc blockAddr
  by_cases set : Free books.alloc (pageOf blockAddr)
  · have bound : pageOf blockAddr < 2 ^ 64 := (blockAddr / pageSize).isLt
    have cleared : ¬ Free (BitmapAllocator.lockBlock books.alloc blockAddr) (pageOf blockAddr) :=
      fun free => ((lockBlock_free ready bound).mp free).1 rfl
    have fresh : pageOf blockAddr ∉ books.locked := fun held => (apart _ held).2 set
    have member : pageOf blockAddr ∈ freePages books.alloc := mem_freePages.mpr ⟨inside, set⟩
    have fewer := Finset.card_erase_add_one member
    obtain ⟨less, more⟩ := lockBlock_moves ready set
    simp only [Books.lockBlock, if_pos set]
    refine ⟨still.trans ready, by rwa [size], by rwa [size], ?_, ?_, ?_, ?_⟩
    · unfold Counted at free ⊢
      rw [less, free, ← fewer, page_more, freePages_lock ready small, BitVec.add_sub_cancel]
    · rw [more, used, Finset.card_insert_of_notMem fresh, page_more]
    · intro index held
      unfold Described
      rw [size]
      rcases Finset.mem_insert.mp held with rfl | before
      · exact ⟨inside, cleared⟩
      · obtain ⟨described, locked⟩ := apart index before
        refine ⟨described, fun free => locked ?_⟩
        unfold Described at described
        exact ((lockBlock_free ready (by omega)).mp free).2
    · rw [freePages_lock ready small, Finset.card_insert_of_notMem fresh]
      omega
  · rw [Books.lockBlock, lockBlock_kept set, if_neg set]
    exact ⟨ready, pos, small, free, used, apart, all⟩

theorem Balanced.freePage (balanced : Balanced pages books) (held : pageOf blockAddr ∈ books.locked) :
    Balanced pages (books.freePage blockAddr) := by
  obtain ⟨ready, pos, small, free, used, apart, all⟩ := balanced
  obtain ⟨still, size, _⟩ := freeBlock_fixed books.alloc blockAddr
  obtain ⟨inside, locked⟩ := apart _ held
  have absent : pageOf blockAddr ∉ freePages books.alloc := fun member => locked (mem_freePages.mp member).2
  have fewer := Finset.card_erase_add_one held
  obtain ⟨more, less⟩ := freeBlock_moves ready locked
  simp only [Books.freePage, BitmapAllocator.freePage]
  refine ⟨still.trans ready, by rwa [size], by rwa [size], ?_, ?_, ?_, ?_⟩
  · unfold Counted at free ⊢
    rw [more, free, freePages_free ready small inside, Finset.card_insert_of_notMem absent, page_more]
  · rw [less, used, ← fewer, page_more, BitVec.add_sub_cancel]
  · intro index kept
    obtain ⟨away, before⟩ := Finset.mem_erase.mp kept
    obtain ⟨described, clear⟩ := apart index before
    unfold Described at described ⊢
    rw [size, freeBlock_free ready (by omega)]
    exact ⟨described, not_or.mpr ⟨away, clear⟩⟩
  · dsimp only
    rw [freePages_free ready small inside, Finset.card_insert_of_notMem absent]
    omega

/-- The block found is a page of the bitmap, and so is page 0. -/
theorem Balanced.nextBlock (balanced : Balanced pages books) :
    Described books.alloc (pageOf (nextBlock books.alloc)) := by
  have pos := balanced.pos
  have small := balanced.small
  unfold Described pageOf
  rcases nextBlock_spec balanced.ready with ⟨index, below, _, _, found⟩ | ⟨_, found⟩
  · rw [found, block_index index (by omega), toNat_ofNat]
    omega
  · rw [found]
    change 0 < _
    omega

/-- Every call keeps the books and the total. -/
theorem Run.balanced (run : Run books after) (balanced : Balanced pages books) :
    Balanced pages after ∧ totalMemory after.alloc = totalMemory books.alloc := by
  induction run with
  | start => exact ⟨balanced, rfl⟩
  | allocate run ih => exact ⟨ih.1.lockBlock ih.1.nextBlock, (lockBlock_total ..).trans ih.2⟩
  | free run blockAddr held ih => exact ⟨ih.1.freePage held, (freeBlock_total ..).trans ih.2⟩

theorem Balanced.lockAll {blocks : List Addr} (balanced : Balanced pages books)
    (inside : ∀ block ∈ blocks, Described books.alloc (pageOf block)) :
    Balanced pages (blocks.foldl Books.lockBlock books) := by
  induction blocks generalizing books with
  | nil => exact balanced
  | cons block rest ih =>
    rw [List.forall_mem_cons] at inside
    refine ih (balanced.lockBlock inside.1) fun other member => ?_
    unfold Described Books.lockBlock
    rw [(lockBlock_fixed books.alloc block).2.1]
    exact inside.2 other member

/-- The move copies all bits. -/
theorem freePages_moved {alloc : Allocator} (size : alloc.memoryBitmap.size = bytes)
    (small : bytes.toNat ≤ 2 ^ 49) (page : Nat) (beyond : Addr → Byte) :
    freePages (moved alloc bytes page beyond) = freePages alloc := by
  ext index
  rw [mem_freePages, mem_freePages]
  unfold Described Free
  rw [size]
  refine and_congr_right fun described => ?_
  change index < 8 * bytes.toNat at described
  have inside : BitVec.ofNat 64 index / 8 < bytes := by
    change _ % _ / 8 < _
    omega
  simp only [Bitmap.get, moved, if_pos inside]

theorem moved_fixed (alloc : Allocator) (bytes : BitVec 64) (page : Nat) (beyond : Addr → Byte) :
    (moved alloc bytes page beyond).isInitialized = alloc.isInitialized ∧
      (moved alloc bytes page beyond).freeMemory = alloc.freeMemory ∧
      (moved alloc bytes page beyond).usedMemory = alloc.usedMemory := by
  unfold moved
  exact ⟨rfl, rfl, rfl⟩

theorem moved_balanced {alloc : Allocator} (size : alloc.memoryBitmap.size = bytes)
    (small : bytes.toNat ≤ 2 ^ 49) (pos : 0 < bytes.toNat) (ready : alloc.isInitialized = true)
    (counted : Counted alloc) (used : alloc.usedMemory = 0)
    (start : books.alloc = moved alloc bytes page beyond) (none : books.locked = ∅) :
    Balanced (freePages alloc).card books := by
  have same := freePages_moved size small page beyond
  obtain ⟨on, left, taken⟩ := moved_fixed alloc bytes page beyond
  constructor
  · rw [start, on, ready]
  · rwa [start]
  · rwa [start]
  · unfold Counted at counted ⊢
    rw [start, same, left, counted]
  · rw [start, taken, used, none, Finset.card_empty]
    rfl
  · simp [none]
  · rw [start, same, none, Finset.card_empty, Nat.add_zero]

end Runs

/-- `initialize` leaves the books balanced. -/
theorem initializeBooks_balanced {memmap : List MmapEntry} (regular : Regular memmap)
    (opened : initializeBooks memmap tempArr beyond = some books) : ∃ pages < 2 ^ 52, Balanced pages books := by
  obtain ⟨after, entries, placed⟩ := Option.bind_eq_some_iff.mp opened
  obtain ⟨page, found, moves⟩ := Option.bind_eq_some_iff.mp placed
  rw [mapped_some regular.low (mapped_ends entries)] at entries
  cases entries
  cases moves
  obtain ⟨size, ready, used⟩ := mapped_fixed (started memmap tempArr) memmap
  have small := bitmapSize_le memmap
  have inside : page < (bitmapSize memmap).toNat := by
    have range := List.mem_range.mp (List.mem_of_find?_eq_some found)
    rwa [size] at range
  have start : Balanced (freePages (mapped (started memmap tempArr) memmap)).card
      ⟨moved (mapped (started memmap tempArr) memmap) (bitmapSize memmap) page beyond, ∅⟩ :=
    moved_balanced size small (Nat.zero_lt_of_lt inside) ready (map_counted regular) used rfl rfl
  refine ⟨(freePages (mapped (started memmap tempArr) memmap)).card, map_small regular, start.lockAll ?_⟩
  intro block member
  obtain ⟨index, below, place⟩ := bitmap_blocks small inside member
  unfold pageOf
  rw [place, toNat_ofNat]
  exact Nat.lt_of_le_of_lt (Nat.mod_le _ _) below

/-- After any calls the counters are the bytes of the free pages and of the pages locked
and not freed, and their sum is what it was. -/
theorem memory_accounted {memmap : List MmapEntry} (regular : Regular memmap) (tempArr : Addr) (beyond : Addr → Byte) :
    (initializeBooks memmap tempArr beyond).map Books.alloc = initializeAllocator constructed memmap tempArr beyond ∧
      ∀ books, initializeBooks memmap tempArr beyond = some books → ∀ after, Run books after →
        after.alloc.freeMemory.toNat = 4096 * (freePages after.alloc).card ∧
          after.alloc.usedMemory.toNat = 4096 * after.locked.card ∧
          totalMemory after.alloc = totalMemory books.alloc := by
  refine ⟨initializeBooks_allocator .., fun books opened after run => ?_⟩
  obtain ⟨pages, few, start⟩ := initializeBooks_balanced regular opened
  obtain ⟨balanced, total⟩ := run.balanced start
  have sum := balanced.all
  refine ⟨?_, ?_, total⟩
  · rw [balanced.free, BitVec.toNat_ofNat]
    omega
  · rw [balanced.used, BitVec.toNat_ofNat]
    omega

/-- Sixteen usable pages, of which two are locked for the bitmap. -/
theorem memory_accounted_sixteen : ∃ books, initializeBooks [⟨0, 0x10000, 1⟩] 0 (fun _ => 0) = some books ∧
    books.allocatePage.alloc.usedMemory.toNat = 4096 * books.allocatePage.locked.card := by
  have regular : Regular [⟨0, 0x10000, 1⟩] := by
    refine ⟨by simp, by simp, ?_⟩
    rintro entry member index ⟨_, below⟩
    cases List.mem_singleton.mp member
    change index < 16 at below
    change index / 8 < 2
    omega
  obtain ⟨same, accounted⟩ := memory_accounted regular 0 fun _ => 0
  have placed : Placeable [⟨0, 0x10000, 1⟩] := ⟨0, by decide, by decide⟩
  cases opened : initializeBooks [⟨0, 0x10000, 1⟩] 0 (fun _ => 0) with
  | none =>
    have bounded : ∀ entry ∈ [(⟨0, 0x10000, 1⟩ : MmapEntry)], Bounded entry := by simp [Bounded]
    rw [opened, initializeAllocator_mapped bounded (by simp [Endless])] at same
    obtain ⟨page, place⟩ := Option.isSome_iff_exists.mp ((mapped_place bounded).mpr placed)
    rw [place] at same
    cases same
  | some books => exact ⟨books, rfl, (accounted books opened _ (.allocate .start)).2.1⟩

end LunaOS.MemoryAccounting
