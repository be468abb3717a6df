import LunaOS.FrameDraws

/-! The bytes of a process, as long as the frames last. Mapping a page changes no
byte of another page, and a store only those stored. -/
namespace LunaOS.UserMemory
open BitVec
open ByteMemory PageTables PageTableTree PageMapping FrameExclusivity PageTranslation PageRecycling
open UserspaceAllocator UserSpace FrameDraws

section Bytes
variable {σ : Type} {alloc : LawfulAllocator σ} {region : List Key → Prop} {root : Frame}
  {st : Physical σ} {flags : PagingFlags}

theorem frame_outside {frame table : Frame} (differ : table ≠ frame) {offset : Nat} (small : offset < 4096) :
    4096 ≤ (frame.val + BitVec.ofNat 64 offset - table.val).toNat := by
  have apart := frames_far differ
  rw [toNat_sub, toNat_add, toNat_ofNat]
  omega

end Bytes

end LunaOS.UserMemory
