import LunaOS.BoundedLoop
import LunaOS.PageTables

/-! The physical page allocator (`memory/bitmap_allocator.cpp`, `utils/Bitmap.cpp`):
one bit for each page, set while the page is free. Its buffer starts as a cleared
array on the stack and moves into pages it describes, which are then locked. -/
namespace LunaOS.BitmapAllocator
open ByteMemory BoundedLoop PageArithmetic PageTables BitVec

/-- `Bitmap`: where the buffer is, what it holds, and how many bytes it has. -/
structure Bitmap where
  buffer : Addr
  bytes : Addr → Byte
  size : BitVec 64

/-- `Bitmap::operator[]` -/
def Bitmap.get (bitmap : Bitmap) (index : BitVec 64) : Bool :=
  let byteIndex := index / 8
  let bitIndex := index % 8
  let mask := (1 : Byte) <<< bitIndex.toNat
  bitmap.bytes byteIndex &&& mask != 0

/-- `Bitmap::set` -/
def Bitmap.set (bitmap : Bitmap) (index : BitVec 64) (value : Bool) : Bitmap :=
  let byteIndex := index / 8
  let bitIndex := index % 8
  let mask := (1 : Byte) <<< bitIndex.toNat
  let cleared := bitmap.bytes byteIndex &&& ~~~mask
  let byte := if value then cleared ||| mask else cleared
  { bitmap with bytes := fun other => if other = byteIndex then byte else bitmap.bytes other }

/-- `stivale2_mmap_entry` -/
structure MmapEntry where
  base : BitVec 64
  length : BitVec 64
  type : BitVec 32

/-- `STIVALE2_MMAP_USABLE` -/
def stivale2MmapUsable : BitVec 32 := 1

/-- `BitmapAllocator` -/
structure Allocator where
  freeMemory : BitVec 64
  usedMemory : BitVec 64
  reservedMemory : BitVec 64
  isInitialized : Bool
  memoryBitmap : Bitmap

/-- `BitmapAllocator::BitmapAllocator`, on an object in zeroed static storage. -/
def constructed : Allocator := ⟨0, 0, 0, false, ⟨0, fun _ => 0, 0⟩⟩

/-- `countMemory` -/
def countMemory (memmap : List MmapEntry) : BitVec 64 :=
  memmap.foldl (fun memorySize entry => memorySize + entry.length) 0

/-- `BitmapAllocator::_lockBlock` -/
def lockBlock (alloc : Allocator) (blockAddr : Addr) : Allocator :=
  if !alloc.isInitialized then alloc
  else if alloc.memoryBitmap.get (blockAddr / pageSize) then
    { alloc with
      freeMemory := alloc.freeMemory - pageSize
      usedMemory := alloc.usedMemory + pageSize
      memoryBitmap := alloc.memoryBitmap.set (blockAddr / pageSize) false }
  else alloc

/-- `BitmapAllocator::_freeBlock` -/
def freeBlock (alloc : Allocator) (blockAddr : Addr) : Allocator :=
  if !alloc.isInitialized then alloc
  else if !alloc.memoryBitmap.get (blockAddr / pageSize) then
    { alloc with
      freeMemory := alloc.freeMemory + pageSize
      usedMemory := alloc.usedMemory - pageSize
      memoryBitmap := alloc.memoryBitmap.set (blockAddr / pageSize) true }
  else alloc

/-- `BitmapAllocator::_nextBlock`: the bound of its loop is the size in bytes. -/
def nextBlock (alloc : Allocator) : Addr :=
  if !alloc.isInitialized then 0
  else
    match (List.range alloc.memoryBitmap.size.toNat).find?
        fun index => alloc.memoryBitmap.get (BitVec.ofNat 64 index) with
    | some index => BitVec.ofNat 64 index * pageSize
    | none => 0

/-- `BitmapAllocator::allocatePage` -/
def allocatePage (alloc : Allocator) : Addr × Allocator :=
  let blockAddr := nextBlock alloc
  (blockAddr, lockBlock alloc blockAddr)

/-- `BitmapAllocator::freePage` -/
def freePage (alloc : Allocator) (blockAddr : Addr) : Allocator := freeBlock alloc blockAddr

/-- `BitmapAllocator::totalMemory` -/
def totalMemory (alloc : Allocator) : BitVec 64 :=
  alloc.freeMemory + alloc.usedMemory + alloc.reservedMemory

/-- The allocator the page tables draw from. -/
def physicalAllocator : FrameAllocator Allocator := ⟨allocatePage, freePage⟩

/-- One turn of the loop over the pages of an entry. -/
def markTurn (entry : MmapEntry) (memStatus : Bool) : Bitmap × BitVec 64 → Turn (Bitmap × BitVec 64) Bitmap
  | (bitmap, pageAddr) =>
    if pageAddr < entry.length then
      let pageBit := (entry.base + pageAddr) / pageSize
      .again (bitmap.set pageBit memStatus, pageAddr + pageSize)
    else .leave bitmap

/-- One entry of the memory map; `none` when the loop over its pages never ends. -/
def mapEntry (alloc : Allocator) (entry : MmapEntry) : Option Allocator := do
  let memStatus := entry.type == stivale2MmapUsable
  let memoryBitmap ← iterate (markTurn entry memStatus) maxTurns (alloc.memoryBitmap, 0)
  pure { alloc with
    freeMemory := alloc.freeMemory + if memStatus then entry.length else 0
    reservedMemory := alloc.reservedMemory + if !memStatus then entry.length else 0
    memoryBitmap }

/-- The search for the pages the bitmap moves to. -/
def bitmapPlace (bitmap : Bitmap) : Option Nat :=
  (List.range bitmap.size.toNat).find? fun pageIndex =>
    bitmap.get (BitVec.ofNat 64 pageIndex) &&
      (List.range (bitmap.size.toNat / 4096 + 1)).all fun i => bitmap.get (BitVec.ofNat 64 (pageIndex + i))

/-- The allocator when its bitmap has moved. Only the bitmap's own bytes are copied: the
bytes `beyond` are what stands there. -/
def moved (alloc : Allocator) (bitmapSize : BitVec 64) (bitmapPage : Nat) (beyond : Addr → Byte) : Allocator :=
  { alloc with memoryBitmap := ⟨applyDirectmap (BitVec.ofNat 64 bitmapPage * pageSize),
      fun offset => if offset < bitmapSize then alloc.memoryBitmap.bytes offset else beyond offset, bitmapSize⟩ }

/-- The pages the moved bitmap takes. -/
def bitmapBlocks (bitmapSize : BitVec 64) (bitmapPage : Nat) : List Addr :=
  (List.range (alignPageUp bitmapSize / pageSize + 1).toNat).map fun i =>
    removeDirectmap (applyDirectmap (BitVec.ofNat 64 bitmapPage * pageSize)) + BitVec.ofNat 64 i * pageSize

/-- The move of the bitmap to its place, where the pages it takes are locked. -/
def moveBitmap (alloc : Allocator) (bitmapSize : BitVec 64) (bitmapPage : Nat) (beyond : Addr → Byte) : Allocator :=
  (bitmapBlocks bitmapSize bitmapPage).foldl lockBlock (moved alloc bitmapSize bitmapPage beyond)

/-- The bytes `initialize` gives the bitmap of a memory map. -/
def bitmapSize (memmap : List MmapEntry) : BitVec 64 := (countMemory memmap / pageSize + 1) / 8

/-- `BitmapAllocator::initialize`, with the stack array at `tempArr`. It has no
result when a loop does not end or no place for the bitmap is found. -/
def initializeAllocator (alloc : Allocator) (memmap : List MmapEntry) (tempArr : Addr)
    (beyond : Addr → Byte) : Option Allocator :=
  if alloc.isInitialized then some alloc
  else do
    let started := { alloc with
      isInitialized := true
      memoryBitmap := ⟨tempArr, fun _ => 0, bitmapSize memmap⟩ }
    let mapped ← memmap.foldlM mapEntry started
    let bitmapPage ← bitmapPlace mapped.memoryBitmap
    pure (moveBitmap mapped (bitmapSize memmap) bitmapPage beyond)

theorem bitmapSize_le (memmap : List MmapEntry) : (bitmapSize memmap).toNat ≤ 2 ^ 49 := by
  have pages : (countMemory memmap / pageSize + 1).toNat ≤ 2 ^ 52 := by
    rw [toNat_add, toNat_udiv, pageSize_toNat]
    exact Nat.le_trans (Nat.mod_le _ _) (by change _ + 1 ≤ _; omega)
  unfold bitmapSize
  change _ / 8 ≤ _
  omega

/-! ## Bits -/

/-- The bit of an index within its byte. -/
def bitOf (index : BitVec 64) : Fin 8 :=
  ⟨(index % 8).toNat, by rw [BitVec.toNat_umod]; exact Nat.mod_lt _ (by decide)⟩

theorem mask_bit (bit position : Fin 8) : ((1 : Byte) <<< bit.val).getLsbD position = decide (position = bit) := by
  revert bit position
  decide

theorem Bitmap.get_eq (bitmap : Bitmap) (index : BitVec 64) :
    bitmap.get index = (bitmap.bytes (index / 8)).getLsbD (bitOf index) := by
  rw [Bool.eq_iff_iff, get, bne_iff_ne, ne_eq]
  change ¬ bitmap.bytes (index / 8) &&& (1 : Byte) <<< (bitOf index).val = 0 ↔ _
  constructor
  · intro nonzero
    by_contra clear
    refine nonzero (eq_of_getLsbD_eq fun position bound => ?_)
    rw [getLsbD_and, mask_bit (bitOf index) ⟨position, bound⟩]
    by_cases here : ⟨position, bound⟩ = bitOf index
    · rw [← here, Bool.not_eq_true] at clear
      rw [clear, Bool.false_and]
      exact getLsbD_zero.symm
    · rw [decide_eq_false here, Bool.and_false]
      exact getLsbD_zero.symm
  · intro bit zero
    have masked := congrArg (fun byte => byte.getLsbD (bitOf index)) zero
    rw [getLsbD_and, mask_bit (bitOf index) (bitOf index), bit] at masked
    simp at masked

theorem index_ext {first second : BitVec 64} (bytes : first / 8 = second / 8) (bits : bitOf first = bitOf second) :
    first = second := by
  have quotients := congrArg BitVec.toNat bytes
  have remainders := congrArg Fin.val bits
  simp only [bitOf, toNat_udiv, toNat_umod] at quotients remainders
  refine eq_of_toNat_eq ?_
  rw [show (8 : BitVec 64).toNat = 8 from rfl] at quotients remainders
  omega

/-- Setting a bit is seen at its own index only. -/
theorem Bitmap.get_set (bitmap : Bitmap) (index other : BitVec 64) (value : Bool) :
    (bitmap.set index value).get other = if other = index then value else bitmap.get other := by
  have cleared : ∀ (byte : Byte) (bit position : Fin 8),
      (byte &&& ~~~((1 : Byte) <<< bit.val)).getLsbD position = (byte.getLsbD position && decide (position ≠ bit)) := by
    intro byte bit position
    rw [getLsbD_and, getLsbD_not, mask_bit]
    simp
  rw [get_eq, get_eq]
  simp only [set]
  split
  · rename_i sameByte
    rw [sameByte]
    have merged : ∀ byte : Byte, (if value then byte &&& ~~~((1 : Byte) <<< (bitOf index).val) |||
        (1 : Byte) <<< (bitOf index).val else byte &&& ~~~((1 : Byte) <<< (bitOf index).val)).getLsbD
        (bitOf other) = if bitOf other = bitOf index then value else byte.getLsbD (bitOf other) := by
      intro byte
      cases value with
      | true =>
        rw [if_pos rfl, getLsbD_or, cleared, mask_bit]
        by_cases here : bitOf other = bitOf index <;> simp [here]
      | false =>
        rw [if_neg Bool.false_ne_true, cleared]
        by_cases here : bitOf other = bitOf index <;> simp [here]
    refine (merged _).trans ?_
    by_cases here : other = index
    · rw [if_pos (by rw [here]), if_pos here]
    · rw [if_neg (fun bits => here (index_ext sameByte bits)), if_neg here]
  · rename_i otherByte
    rw [if_neg (fun same => otherByte (by rw [same]))]

/-- A sequence of calls of `set`. -/
def Bitmap.setAll (bitmap : Bitmap) (calls : List (BitVec 64 × Bool)) : Bitmap :=
  calls.foldl (fun bitmap call => bitmap.set call.1 call.2) bitmap

/-- The value of the last call at an index, if there is one. -/
def lastSet (calls : List (BitVec 64 × Bool)) (index : BitVec 64) : Option Bool :=
  (calls.reverse.find? fun call => call.1 = index).map Prod.snd

theorem Bitmap.get_setAll (bitmap : Bitmap) (calls : List (BitVec 64 × Bool)) (index : BitVec 64) :
    (bitmap.setAll calls).get index = (lastSet calls index).getD (bitmap.get index) := by
  induction calls using List.reverseRecOn with
  | nil => rfl
  | append_singleton calls call ih =>
    have run : bitmap.setAll (calls ++ [call]) = (bitmap.setAll calls).set call.1 call.2 := List.foldl_concat ..
    rw [run, get_set, ih, lastSet, lastSet, List.reverse_concat, List.find?_cons]
    by_cases here : call.1 = index
    · rw [if_pos here.symm, decide_eq_true here]
      rfl
    · rw [if_neg (Ne.symm here), decide_eq_false here]

/-- **A bitmap is an array of bits.** A call of `set` is seen at its own index only, and
after any calls an index holds the value of its last call or its first bit. -/
theorem Bitmap.array_of_bits (bitmap : Bitmap) :
    (∀ i j value, (bitmap.set i value).get j = if i = j then value else bitmap.get j) ∧
      ∀ calls j, (bitmap.setAll calls).get j = (lastSet calls j).getD (bitmap.get j) := by
  refine ⟨fun i j value => ?_, bitmap.get_setAll⟩
  rw [get_set]
  exact if_congr eq_comm rfl rfl

@[simp] theorem Bitmap.set_size (bitmap : Bitmap) : (bitmap.set index value).size = bitmap.size := rfl
/-! ## Blocks -/

section Blocks
variable {alloc : Allocator}

theorem lockBlock_get (ready : alloc.isInitialized = true) (blockAddr index : BitVec 64) :
    (lockBlock alloc blockAddr).memoryBitmap.get index =
      if index = blockAddr / pageSize then false else alloc.memoryBitmap.get index := by
  rw [lockBlock, if_neg (by rw [ready]; decide)]
  split
  · exact Bitmap.get_set ..
  · rename_i locked
    split
    · rename_i here
      rw [here]
      exact Bool.not_eq_true _ |>.mp locked
    · rfl

theorem freeBlock_get (ready : alloc.isInitialized = true) (blockAddr index : BitVec 64) :
    (freeBlock alloc blockAddr).memoryBitmap.get index =
      if index = blockAddr / pageSize then true else alloc.memoryBitmap.get index := by
  rw [freeBlock, if_neg (by rw [ready]; decide)]
  split
  · exact Bitmap.get_set ..
  · rename_i free
    split
    · rename_i here
      rw [here]
      simpa using free
    · rfl

theorem lockBlock_fixed (alloc : Allocator) (blockAddr : Addr) :
    (lockBlock alloc blockAddr).isInitialized = alloc.isInitialized ∧
      (lockBlock alloc blockAddr).memoryBitmap.size = alloc.memoryBitmap.size ∧
      (lockBlock alloc blockAddr).memoryBitmap.buffer = alloc.memoryBitmap.buffer := by
  unfold lockBlock
  split
  · exact ⟨rfl, rfl, rfl⟩
  · split <;> exact ⟨rfl, rfl, rfl⟩

theorem freeBlock_fixed (alloc : Allocator) (blockAddr : Addr) :
    (freeBlock alloc blockAddr).isInitialized = alloc.isInitialized ∧
      (freeBlock alloc blockAddr).memoryBitmap.size = alloc.memoryBitmap.size ∧
      (freeBlock alloc blockAddr).memoryBitmap.buffer = alloc.memoryBitmap.buffer := by
  unfold freeBlock
  split
  · exact ⟨rfl, rfl, rfl⟩
  · split <;> exact ⟨rfl, rfl, rfl⟩

theorem block_index (index : Nat) (small : index < 2 ^ 52) :
    BitVec.ofNat 64 index * pageSize / pageSize = BitVec.ofNat 64 index := by
  refine eq_of_toNat_eq ?_
  rw [toNat_udiv, toNat_mul, pageSize_toNat, toNat_ofNat]
  omega

/-- A block found is the page of a set bit. -/
theorem nextBlock_cases (alloc : Allocator) (bounded : alloc.memoryBitmap.size.toNat ≤ 2 ^ 52) : nextBlock alloc = 0 ∨
      alloc.memoryBitmap.get (nextBlock alloc / pageSize) = true ∧
        nextBlock alloc = nextBlock alloc / pageSize * pageSize ∧
        nextBlock alloc / pageSize < alloc.memoryBitmap.size := by
  unfold nextBlock
  split
  · exact .inl rfl
  · cases found : (List.range alloc.memoryBitmap.size.toNat).find?
        fun index => alloc.memoryBitmap.get (BitVec.ofNat 64 index) with
    | none => exact .inl rfl
    | some index =>
      have inside := List.mem_range.mp (List.mem_of_find?_eq_some found)
      refine .inr ?_
      rw [block_index index (by omega)]
      refine ⟨by simpa using List.find?_some found, rfl, ?_⟩
      exact Nat.lt_of_le_of_lt (Nat.mod_le _ _) inside

end Blocks

end LunaOS.BitmapAllocator
