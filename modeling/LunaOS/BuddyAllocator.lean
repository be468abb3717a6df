import LunaOS.BoundedLoop
import LunaOS.ByteMemory
import Mathlib.Data.Nat.Size
import Mathlib.Order.Bounds.Defs

/-! The buddy allocator (`memory/buddy_allocator.cpp`). Block headers are 18 bytes
of memory: the tag in bit 0 of the first, the two links behind it and the order
in the last. The heads of the available lists are headers inside the allocator. -/
namespace LunaOS.BuddyAllocator
open ByteMemory BoundedLoop BitVec

/-! ## Orders -/

/-- The loop of `buddyallocatorFindOrder`; 64 halvings leave no more to do. -/
def halvings : Nat → BitVec 64 → Nat
  | 0, _ => 0
  | turns + 1, num => if 1 < num then halvings turns (num >>> 1) + 1 else 0

/-- `buddyallocatorFindOrder` -/
def buddyallocatorFindOrder (size : BitVec 64) (min : BitVec 8) : Nat := halvings 64 (size / min.setWidth 64)

/-- `alignToPowerOfTwo` -/
def alignToPowerOfTwo (v : BitVec 64) : BitVec 64 :=
  let v := v - 1
  let v := v ||| v >>> 1
  let v := v ||| v >>> 2
  let v := v ||| v >>> 4
  let v := v ||| v >>> 8
  let v := v ||| v >>> 16
  let v := v ||| v >>> 32
  v + 1

/-! ## Headers -/

/-- `sizeof(k_buddyallocator_block_hdr)` -/
def headerSize : BitVec 64 := 18

def tag (mem : Memory) (block : Addr) : Bool := (mem block).getLsbD 0
def linkf (mem : Memory) (block : Addr) : Addr := load64 mem (block + 1)
def linkb (mem : Memory) (block : Addr) : Addr := load64 mem (block + 9)
def kval (mem : Memory) (block : Addr) : BitVec 8 := mem (block + 17)

/-- `block->tag = tag` leaves the other bits of the byte alone. -/
def setTag (mem : Memory) (block : Addr) (tag : Bool) : Memory :=
  store8 mem block (mem block &&& 0xfe ||| if tag then 1 else 0)

def setLinkf (mem : Memory) (block link : Addr) : Memory := store64 mem (block + 1) link
def setLinkb (mem : Memory) (block link : Addr) : Memory := store64 mem (block + 9) link
def setKval (mem : Memory) (block : Addr) (order : BitVec 8) : Memory := store8 mem (block + 17) order

/-! ## The allocator -/

/-- `k_buddyallocator`, with the address of its array `avail`. -/
structure Allocator where
  avail : Addr
  maxOrder : Nat
  minBlockSize : BitVec 8
  base : Addr
  size : BitVec 64

/-- `&this->avail[order]` -/
def Allocator.list (alloc : Allocator) (order : Nat) : Addr :=
  alloc.avail + BitVec.ofNat 64 order * headerSize

/-- `LINKED_LIST_IS_EMPTY` -/
def linkedListIsEmpty (mem : Memory) (link : Addr) : Bool := linkf mem link == link

/-- `BUDDYALLOCATOR_GET_BUDDY` -/
def getBuddy (mem : Memory) (block : Addr) : Addr := block ^^^ 1#64 <<< (kval mem block).toNat

/-- The fields the constructor sets. -/
def construct (avail base : Addr) (size : BitVec 64) (minBlockSize : BitVec 8) : Allocator where
  avail := avail
  maxOrder := buddyallocatorFindOrder size minBlockSize
  minBlockSize := minBlockSize
  base := base
  size := alignToPowerOfTwo size

section Calls
variable (alloc : Allocator)

/-- `this->avail[i].linkf = this->avail[i].linkb = &this->avail[i]` -/
def resetList (mem : Memory) (order : Nat) : Memory :=
  let list := alloc.list order
  setLinkf (setLinkb mem list list) list list

/-- What the constructor writes: empty lists, and the whole region on the topmost. -/
def initLists (mem : Memory) : Memory :=
  let mem := (List.range (alloc.maxOrder + 1)).foldl (resetList alloc) mem
  let list := alloc.list alloc.maxOrder
  let baseBlock := alloc.base
  let mem := setLinkf mem list baseBlock
  let mem := setLinkb mem baseBlock list
  let mem := setLinkb mem list baseBlock
  let mem := setLinkf mem baseBlock list
  let mem := setTag mem baseBlock true
  setKval mem baseBlock (BitVec.ofNat 8 alloc.maxOrder)

/-- The right half of a block of order `j + 1` as the only block of its list. -/
def putHalf (mem : Memory) (block : Addr) (j : Nat) : Memory :=
  let nextBlock := block + 1#64 <<< j
  let list := alloc.list j
  let mem := setTag mem nextBlock true
  let mem := setKval mem nextBlock (BitVec.ofNat 8 j)
  let mem := setLinkb mem nextBlock list
  let mem := setLinkf mem nextBlock list
  let mem := setLinkb mem list nextBlock
  setLinkf mem list nextBlock

/-- `while ((j--) > requiredOrder)` -/
def splitBlock (block : Addr) (requiredOrder : Nat) : Nat → Memory → Memory
  | 0, mem => mem
  | j + 1, mem =>
    if requiredOrder < j + 1 then splitBlock block requiredOrder j (putHalf alloc mem block j) else mem

/-- The order `allocate` asks for. -/
def requiredOrder (size : BitVec 64) : Nat :=
  buddyallocatorFindOrder (alignToPowerOfTwo (size + headerSize)) alloc.minBlockSize

/-- The smallest order from `required` on with an available block. -/
def findAvailable (mem : Memory) (required : Nat) : Option Nat :=
  (List.range' required (alloc.maxOrder + 1 - required)).find? fun j =>
    !linkedListIsEmpty mem (alloc.list j)

/-- `k_buddyallocator::allocate` -/
def allocate (mem : Memory) (size : BitVec 64) : Addr × Memory :=
  let required := requiredOrder alloc size
  match findAvailable alloc mem required with
  | none => (0, mem)
  | some j =>
    let list := alloc.list j
    let block := linkf mem list
    let nextBlock := linkf mem block
    let mem := setLinkf mem list nextBlock
    let mem := setLinkb mem nextBlock list
    let mem := splitBlock alloc block required j mem
    let mem := setTag mem block false
    let mem := setKval mem block (BitVec.ofNat 8 required)
    (block + headerSize, mem)

/-- Take a block out of the list it is on. -/
def unlink (mem : Memory) (buddy : Addr) : Memory :=
  let mem := setLinkf mem (linkb mem buddy) (linkf mem buddy)
  setLinkb mem (linkf mem buddy) (linkb mem buddy)

/-- One turn of the merging loop. -/
def mergeTurn : Memory × Addr → Turn (Memory × Addr) (Memory × Addr)
  | (mem, block) =>
    let buddy := getBuddy mem block
    if (kval mem block).toNat ≠ alloc.maxOrder ∧ tag mem buddy = true ∧ kval mem buddy = kval mem block then
      let mem := unlink mem buddy
      let block := if buddy < block then buddy else block
      .again (setKval mem block (kval mem block + 1), block)
    else .leave (mem, block)

/-- The end of `deallocate`: the block goes to the front of the list of its order. -/
def pushBlock (mem : Memory) (block : Addr) : Memory :=
  let list := fun mem => alloc.list (kval mem block).toNat
  let mem := setTag mem block true
  let firstBlock := linkf mem (list mem)
  let mem := setLinkf mem block firstBlock
  let mem := setLinkb mem firstBlock block
  let mem := setLinkb mem block (list mem)
  setLinkf mem (list mem) block

/-- `k_buddyallocator::deallocate`; `none` is a loop that does not end. -/
def deallocate (mem : Memory) (addr : Addr) : Option Memory :=
  let block := addr - headerSize
  if block < alloc.base || alloc.base + alloc.size < block then some mem
  else if tag mem block then some mem
  else
    match iterate (mergeTurn alloc) maxTurns (mem, block) with
    | none => none
    | some (mem, block) => some (pushBlock alloc mem block)

end Calls

/-! ## What the orders are -/

theorem halvings_pow (power : num.toNat = 2 ^ order) (enough : order ≤ turns) : halvings turns num = order := by
  induction turns generalizing num order with
  | zero =>
    obtain rfl : order = 0 := by omega
    rfl
  | succ turns ih =>
    cases order with
    | zero =>
      have small : ¬ 1 < num := by
        rw [lt_def, power]
        decide
      rw [halvings, if_neg small]
    | succ order =>
      have large : 1 < num := by
        have pos := Nat.two_pow_pos order
        rw [lt_def, power, Nat.pow_succ, show BitVec.toNat (1 : BitVec 64) = 1 from rfl]
        omega
      have half : (num >>> 1).toNat = 2 ^ order := by
        rw [toNat_ushiftRight, power, Nat.shiftRight_eq_div_pow, Nat.pow_succ]
        omega
      rw [halvings, if_pos large, ih half (by omega)]

/-- The order of a power of two, counted in units of another. -/
theorem findOrder_dyadic {min : BitVec 8} (power : size.toNat = 2 ^ order) (dyadic : min.toNat = 2 ^ unit)
    (low : unit ≤ order) (enough : order ≤ 64) : buddyallocatorFindOrder size min = order - unit := by
  apply halvings_pow _ (by omega)
  rw [toNat_udiv, toNat_setWidth, Nat.mod_eq_of_lt (Nat.lt_trans min.isLt (by decide)), power, dyadic,
    Nat.pow_div low (by decide)]

theorem findOrder_pow (power : size.toNat = 2 ^ order) (enough : order ≤ 64) :
    buddyallocatorFindOrder size 1 = order :=
  findOrder_dyadic power (show (1 : BitVec 8).toNat = 2 ^ 0 from rfl) (Nat.zero_le order) enough

/-- A bit of `after` is set when one of the `width` bits of `before` from it on is. -/
def Smeared (width : Nat) (before after : BitVec 64) : Prop :=
  ∀ index, after.getLsbD index = true ↔ ∃ shift < width, before.getLsbD (index + shift) = true

theorem Smeared.double (smeared : Smeared width before after) :
    Smeared (width + width) before (after ||| after >>> width) := by
  intro index
  rw [getLsbD_or, getLsbD_ushiftRight, Bool.or_eq_true, smeared, smeared]
  constructor
  · rintro (⟨shift, small, set⟩ | ⟨shift, small, set⟩)
    · exact ⟨shift, by omega, set⟩
    · exact ⟨width + shift, by omega, by rwa [← Nat.add_assoc, Nat.add_comm index]⟩
  · rintro ⟨shift, small, set⟩
    by_cases near : shift < width
    · exact .inl ⟨shift, near, set⟩
    · refine .inr ⟨shift - width, by omega, ?_⟩
      have place : width + index + (shift - width) = index + shift := by omega
      rwa [place]

theorem Smeared.full (smeared : Smeared 64 before after) : after.toNat = 2 ^ before.toNat.size - 1 := by
  apply Nat.eq_of_testBit_eq
  intro index
  rw [Nat.testBit_two_pow_sub_one, testBit_toNat, Bool.eq_iff_iff, smeared, decide_eq_true_eq, Nat.lt_size]
  constructor
  · rintro ⟨shift, _, set⟩
    exact Nat.le_trans (Nat.pow_le_pow_right (by decide) (Nat.le_add_right index shift))
      (Nat.ge_two_pow_of_testBit set)
  · intro large
    have pos : before.toNat ≠ 0 := by
      have := Nat.two_pow_pos index
      omega
    have top : before.toNat.log2 < 64 := (Nat.log2_lt pos).mpr before.isLt
    have reach := (Nat.le_log2 pos).mpr large
    refine ⟨before.toNat.log2 - index, by omega, ?_⟩
    rw [Nat.add_sub_cancel' reach]
    exact Nat.testBit_log2 pos

theorem align_toNat (v : BitVec 64) : (alignToPowerOfTwo v).toNat = 2 ^ (v - 1).toNat.size % 2 ^ 64 := by
  have one : Smeared 1 (v - 1) (v - 1) := by
    intro index
    constructor
    · exact fun set => ⟨0, by decide, set⟩
    · rintro ⟨shift, small, set⟩
      obtain rfl : shift = 0 := by omega
      exact set
  obtain ⟨smeared, shape, full⟩ : ∃ smeared, alignToPowerOfTwo v = smeared + 1 ∧
      smeared.toNat = 2 ^ (v - 1).toNat.size - 1 :=
    ⟨_, rfl, one.double.double.double.double.double.double.full⟩
  have least := Nat.two_pow_pos (v - 1).toNat.size
  rw [shape, toNat_add, full, show BitVec.toNat (1 : BitVec 64) = 1 from rfl, Nat.sub_add_cancel least]

theorem align_size (pos : 0 < v.toNat) (bound : v.toNat ≤ 2 ^ 63) :
    (alignToPowerOfTwo v).toNat = 2 ^ (v.toNat - 1).size := by
  have below : (v - 1).toNat = v.toNat - 1 := by
    rw [toNat_sub, show BitVec.toNat (1 : BitVec 64) = 1 from rfl]
    omega
  have small : (v.toNat - 1).size ≤ 63 := Nat.size_le.mpr (by omega)
  rw [align_toNat, below, Nat.mod_eq_of_lt (Nat.pow_lt_pow_right (by decide) (Nat.lt_succ_of_le small))]

theorem align_pow (power : v.toNat = 2 ^ order) (bound : order ≤ 63) : (alignToPowerOfTwo v).toNat = 2 ^ order := by
  have pos := Nat.two_pow_pos order
  have room : 2 ^ order ≤ 2 ^ 63 := Nat.pow_le_pow_right (by decide) bound
  have size : (2 ^ order - 1).size = order := by
    apply Nat.le_antisymm (Nat.size_le.mpr (by omega))
    cases order with
    | zero => exact Nat.zero_le _
    | succ order =>
      exact Nat.lt_size.mpr (by rw [Nat.pow_succ]; omega)
  rw [align_size (by omega) (by omega), power, size]

theorem requiredOrder_eq {alloc : Allocator} (unit : alloc.minBlockSize = 1)
    (bound : size.toNat + 18 ≤ 2 ^ 63) : requiredOrder alloc size = (size.toNat + 17).size := by
  have sum : (size + headerSize).toNat = size.toNat + 18 := by
    rw [toNat_add, show headerSize.toNat = 18 from rfl]
    omega
  have aligned := align_size (v := size + headerSize) (by omega) (by omega)
  have small : (size.toNat + 17).size ≤ 63 := Nat.size_le.mpr (by omega)
  rw [sum, Nat.add_sub_assoc (by decide)] at aligned
  rw [requiredOrder, unit]
  exact findOrder_pow aligned (by omega)

/-- The order of a request: a block of it has room for the header and the payload. -/
theorem requiredOrder_fits {alloc : Allocator} (unit : alloc.minBlockSize = 1) (bound : size.toNat + 18 ≤ 2 ^ 63) :
    size.toNat + 18 ≤ 2 ^ requiredOrder alloc size ∧ 5 ≤ requiredOrder alloc size := by
  have fits := Nat.lt_size_self (size.toNat + 17)
  rw [requiredOrder_eq unit bound]
  refine ⟨by omega, Nat.lt_size.mpr ?_⟩
  omega

theorem align_least (pos : 1 ≤ v.toNat) (bound : v.toNat ≤ 2 ^ 63) :
    IsLeast {power | v.toNat ≤ power ∧ ∃ order, power = 2 ^ order} (alignToPowerOfTwo v).toNat := by
  rw [align_size pos bound]
  have fits := Nat.lt_size_self (v.toNat - 1)
  refine ⟨⟨by omega, _, rfl⟩, ?_⟩
  rintro power ⟨large, order, rfl⟩
  exact Nat.pow_le_pow_right (by decide) (Nat.size_le.mpr (by omega))

theorem findOrder_unique {s : BitVec 64} {min : BitVec 8} (power : s.toNat = 2 ^ order) (dyadic : min.toNat = 2 ^ unit)
    (ordered : min.toNat ≤ s.toNat) (k : Nat) : min.toNat * 2 ^ k = s.toNat ↔ k = buddyallocatorFindOrder s min := by
  have low : unit ≤ order := by
    rw [power, dyadic] at ordered
    exact (Nat.pow_le_pow_iff_right (by decide)).mp ordered
  have high : order < 64 := by
    have bound := s.isLt
    rw [power] at bound
    exact (Nat.pow_lt_pow_iff_right (by decide)).mp bound
  rw [findOrder_dyadic power dyadic low (by omega), power, dyadic, ← Nat.pow_add, Nat.pow_right_inj (by decide)]
  omega

theorem requiredOrder_least {alloc : Allocator} (unit : alloc.minBlockSize = 1)
    (bound : size.toNat + 18 ≤ 2 ^ 63) : IsLeast {k | size.toNat + 18 ≤ 2 ^ k} (requiredOrder alloc size) := by
  refine ⟨(requiredOrder_fits unit bound).1, ?_⟩
  intro k (large : size.toNat + 18 ≤ 2 ^ k)
  rw [requiredOrder_eq unit bound]
  exact Nat.size_le.mpr (by omega)

/-- **Orders are exact.** The alignment is the least power of two, the order is the one
exponent between two powers, and a request gets the least order that has room for it. -/
theorem orders_exact : (∀ v : BitVec 64, 1 ≤ v.toNat → v.toNat ≤ 2 ^ 63 →
      IsLeast {power | v.toNat ≤ power ∧ ∃ order, power = 2 ^ order} (alignToPowerOfTwo v).toNat) ∧
    (∀ (s : BitVec 64) (min : BitVec 8), (∃ order, s.toNat = 2 ^ order) → (∃ unit, min.toNat = 2 ^ unit) →
      min.toNat ≤ s.toNat → ∀ k, min.toNat * 2 ^ k = s.toNat ↔ k = buddyallocatorFindOrder s min) ∧
    ∀ (alloc : Allocator) (size : BitVec 64), alloc.minBlockSize = 1 → size.toNat + 18 ≤ 2 ^ 63 →
      IsLeast {k | size.toNat + 18 ≤ 2 ^ k} (requiredOrder alloc size) := by
  refine ⟨fun v pos bound => align_least pos bound, ?_, fun alloc size unit bound => requiredOrder_least unit bound⟩
  rintro s min ⟨order, power⟩ ⟨unit, dyadic⟩ ordered
  exact findOrder_unique power dyadic ordered

theorem orders_exact_page :
    IsLeast {power | 4000 ≤ power ∧ ∃ order, power = 2 ^ order} (alignToPowerOfTwo 4000).toNat ∧
      16 * 2 ^ 8 = 4096 ∧ buddyallocatorFindOrder 4096 16 = 8 ∧
      IsLeast {k | 4078 + 18 ≤ 2 ^ k} (requiredOrder (construct 0x1000 0x100000 0x100000 1) 4078) :=
  ⟨orders_exact.1 4000 (by decide) (by decide), by decide,
    ((orders_exact.2.1 4096 16 ⟨12, rfl⟩ ⟨4, rfl⟩ (by decide) 8).mp (by decide)).symm,
    orders_exact.2.2 (construct 0x1000 0x100000 0x100000 1) 4078 rfl (by decide)⟩

end LunaOS.BuddyAllocator
