import LunaOS.ByteMemory
import LunaOS.BoundedLoop

/-! The kernel heap's first-fit allocator (`memory/freelist_allocator.cpp`) over
the bytes it manages. Headers are packed 17-byte records inside the managed
memory itself, so a header store can damage a payload or another header; nothing
here assumes that it does not. -/
namespace LunaOS.FreelistAllocator
open ByteMemory BoundedLoop

/-- `k_chunk_header`, packed: `next` at 0, the `used` bit at 8, `size` at 9. -/
structure ChunkHeader where
  next : Addr
  used : Bool
  size : BitVec 64
  deriving DecidableEq

def sizeofChunkHeader : BitVec 64 := 17

def header (mem : Memory) (chunk : Addr) : ChunkHeader where
  next := load64 mem chunk
  used := (mem (chunk + 8)).getLsbD 0
  size := load64 mem (chunk + 9)

def setNext (mem : Memory) (chunk next : Addr) : Memory := store64 mem chunk next

/-- `used` is a one-bit field: the other seven bits of its byte stay. -/
def setUsed (mem : Memory) (chunk : Addr) (used : Bool) : Memory :=
  store8 mem (chunk + 8) ((mem (chunk + 8) &&& 0xfe) ||| (BitVec.ofBool used).setWidth 8)

def setSize (mem : Memory) (chunk : Addr) (size : BitVec 64) : Memory :=
  store64 mem (chunk + 9) size

/-- `k_freelist_allocator::init`; the head is `start` itself. -/
def init (mem : Memory) (start finish : Addr) : Memory :=
  setNext (setSize (setUsed mem start false) start (finish - start)) start 0

/-- The split of a fitting chunk: the remainder's header is written first, from
the chunk's old fields. -/
def split (mem : Memory) (curr : Addr) (size : BitVec 64) : Memory :=
  let rest := curr + sizeofChunkHeader + size
  let mem := setSize mem rest ((header mem curr).size - (sizeofChunkHeader + size))
  let mem := setUsed mem rest false
  let mem := setNext mem rest (header mem curr).next
  let mem := setNext mem curr rest
  let mem := setUsed mem curr true
  setSize mem curr size

def allocateTurn (mem : Memory) (size : BitVec 64) (curr : Addr) : Turn Addr (Addr × Memory) :=
  if curr = 0 then .leave (0, mem)
  else if !(header mem curr).used && sizeofChunkHeader + size ≤ (header mem curr).size then
    .leave (curr + sizeofChunkHeader, split mem curr size)
  else .again (header mem curr).next

/-- `k_freelist_allocator::allocate`: first fit, `NULL` for a zero size or when
nothing fits. -/
def allocate (head : Addr) (mem : Memory) (size : BitVec 64) : Option (Addr × Memory) :=
  if size = 0 then some (0, mem)
  else iterate (allocateTurn mem size) maxTurns head

def mergeTurn (state : Memory × Addr) : Turn (Memory × Addr) Memory :=
  let (mem, curr) := state
  if curr = 0 then .leave mem
  else
    let next := (header mem curr).next
    if next = 0 then .leave mem
    else if !(header mem curr).used && !(header mem next).used then
      let mem := setSize mem curr ((header mem curr).size + (header mem next).size)
      .again (setNext mem curr (header mem next).next, curr)
    else .again (mem, next)

/-- `k_freelist_allocator::mergeChunks`. -/
def mergeChunks (head : Addr) (mem : Memory) : Option Memory :=
  iterate mergeTurn maxTurns (mem, head)

/-- `k_freelist_allocator::free`, with the freed size. -/
def free (head : Addr) (mem : Memory) (pointer : Addr) : Option (BitVec 64 × Memory) :=
  let chunk := pointer - sizeofChunkHeader
  if !(header mem chunk).used then some (0, mem)
  else
    let mem := setUsed mem chunk false
    let size := (header mem chunk).size
    (mergeChunks head mem).map (size, ·)

def tailTurn (mem : Memory) (tail : Addr) : Turn Addr Addr :=
  if (header mem tail).next = 0 then .leave tail else .again (header mem tail).next

/-- `k_freelist_allocator::expand`. -/
def expand (head : Addr) (mem : Memory) (amount : BitVec 64) : Option Memory := do
  let tail ← iterate (tailTurn mem) maxTurns head
  let newChunk := tail + sizeofChunkHeader + (header mem tail).size
  let mem := setNext mem newChunk 0
  let mem := setSize mem newChunk amount
  let mem := setUsed mem newChunk false
  mergeChunks head (setNext mem tail newChunk)

@[simp] theorem header_setNext (mem : Memory) (chunk next : Addr) :
    header (setNext mem chunk next) chunk = { header mem chunk with next := next } := by
  have flag : setNext mem chunk next (chunk + 8) = mem (chunk + 8) := by
    rw [setNext, store64, write_of_le (by bv_omega)]
  have tail : load64 (setNext mem chunk next) (chunk + 9) = load64 mem (chunk + 9) :=
    load64_write (by intro offset inside; bv_omega)
  have first : load64 (setNext mem chunk next) chunk = next := load64_store64 ..
  simp only [header, first, flag, tail]

@[simp] theorem header_setUsed (mem : Memory) (chunk : Addr) (used : Bool) :
    header (setUsed mem chunk used) chunk = { header mem chunk with used := used } := by
  have first : load64 (setUsed mem chunk used) chunk = load64 mem chunk :=
    load64_write (by intro offset inside; bv_omega)
  have tail : load64 (setUsed mem chunk used) (chunk + 9) = load64 mem (chunk + 9) :=
    load64_write (by intro offset inside; bv_omega)
  have flag : (setUsed mem chunk used (chunk + 8)).getLsbD 0 = used := by
    rw [setUsed, store8, write_of_lt (by simp)]
    simp
  simp only [header, first, tail, flag]

@[simp] theorem header_setSize (mem : Memory) (chunk : Addr) (size : BitVec 64) :
    header (setSize mem chunk size) chunk = { header mem chunk with size := size } := by
  have first : load64 (setSize mem chunk size) chunk = load64 mem chunk :=
    load64_write (by intro offset inside; bv_omega)
  have flag : setSize mem chunk size (chunk + 8) = mem (chunk + 8) := by
    rw [setSize, store64, write_of_le (by bv_omega)]
  have tail : load64 (setSize mem chunk size) (chunk + 9) = size := load64_store64 ..
  simp only [header, first, flag, tail]

/-- A block write apart from a header leaves the header alone. -/
theorem header_write {mem : Memory} {chunk other : Addr} (apart : Apart chunk 17 other count) :
    header (write mem other count bytes) chunk = header mem chunk := by
  have first : load64 (write mem other count bytes) chunk = load64 mem chunk :=
    load64_write fun offset inside => apart offset (by omega)
  have flag : write mem other count bytes (chunk + 8) = mem (chunk + 8) :=
    write_of_le (apart 8 (by omega))
  have tail : load64 (write mem other count bytes) (chunk + 9) = load64 mem (chunk + 9) :=
    load64_write (apart.sub_block 9 (by omega))
  simp only [header, first, flag, tail]

section Apart
variable {mem : Memory} {chunk other : Addr} (apart : Apart chunk 17 other 17)
include apart

theorem header_setNext_apart : header (setNext mem other next) chunk = header mem chunk :=
  header_write (by simpa using apart.within 0 (show 0 + 8 ≤ 17 by omega))

theorem header_setUsed_apart : header (setUsed mem other used) chunk = header mem chunk :=
  header_write (apart.within 8 (by omega))

theorem header_setSize_apart : header (setSize mem other size) chunk = header mem chunk :=
  header_write (apart.within 9 (by omega))

end Apart

end LunaOS.FreelistAllocator
