import LunaOS.ElfLoader
import LunaOS.KernelHalf
import LunaOS.RangeGrants
import LunaOS.UserMemory

/-! The image a load leaves. The loop reserves the pages of each segment, clears
them and copies the file's bytes, but never asks whether the reservation was
granted. What the space holds at the end is what the file asks for exactly when
every page of every segment was granted to one of them. -/
namespace LunaOS.ElfImage
open BitVec hiding not_or
open ByteMemory PageArithmetic PageTables PageTableTree PageMapping FrameExclusivity PageTranslation
open RangeAllocator UserspaceAllocator UserSpace FrameDraws UserMemory RangeGrants ElfLoader

/-- The end of the range of a process. -/
def limit : Nat := userspaceStackMax.toNat

/-- The bytes a segment has in memory. -/
def InImage (phdr : Elf64Phdr) (virt : Addr) : Prop := (virt - phdr.pVaddr).toNat < phdr.pMemsz.toNat

/-- The bytes a segment has in the file. -/
def InFile (phdr : Elf64Phdr) (virt : Addr) : Prop := (virt - phdr.pVaddr).toNat < phdr.pFilesz.toNat

instance (phdr : Elf64Phdr) (virt : Addr) : Decidable (InFile phdr virt) := inferInstanceAs (Decidable (_ < _))

/-- The program headers of a well-formed file. -/
structure WellFormed (phdrs : List Elf64Phdr) : Prop where
  placed : ∀ phdr ∈ phdrs, phdr.pType = ptLoad →
    0x1000 ≤ phdr.pVaddr.toNat ∧ phdr.pVaddr.toNat + phdr.pMemsz.toNat ≤ limit
  sized : ∀ phdr ∈ phdrs, phdr.pType = ptLoad ∨ phdr.pType = ptTls → phdr.pFilesz.toNat ≤ phdr.pMemsz.toNat
  apart : phdrs.Pairwise fun first second => first.pType = ptLoad → second.pType = ptLoad →
    ∀ virt, ¬ (InImage first virt ∧ InImage second virt)
  tls : ∀ phdr ∈ phdrs, phdr.pType = ptTls → phdr.pMemsz.toNat + phdr.pAlign.toNat + 8 < 2 ^ 64

/-- What the file asks the space to hold. -/
def Faithful (file : ElfFile) (phdrs : List Elf64Phdr) (root : Frame) (mem : Memory) : Prop :=
  ∀ phdr ∈ phdrs, phdr.pType = ptLoad → ∀ i < phdr.pMemsz.toNat, loadByte mem root (phdr.pVaddr + BitVec.ofNat 64 i) =
      some (if i < phdr.pFilesz.toNat then file.byte (phdr.pOffset + BitVec.ofNat 64 i) else 0)

/-! ## The image -/

/-- One segment over what was there. -/
def overlay (file : ElfFile) (virt : Addr) (byte : Byte) (phdr : Elf64Phdr) : Byte :=
  if phdr.pType = ptLoad ∧ InFile phdr virt then file.byte (phdr.pOffset + (virt - phdr.pVaddr)) else byte

/-- The byte that the segments loaded so far leave at an address, over zeros. -/
def image (file : ElfFile) (phdrs : List Elf64Phdr) (virt : Addr) : Byte := phdrs.foldl (overlay file virt) 0

section Loop
variable {σ : Type} {alloc : LawfulAllocator σ} {root : Frame} {file : ElfFile}

theorem store_eq_some {proc next : Process σ} (stored : store proc base count bytes = some next) :
    ∃ mem, storeBytes proc.physical.mem proc.pml4Physical base count bytes = some mem ∧
      next = ⟨proc.memoryAllocator, proc.pml4Physical, ⟨mem, proc.physical.frames⟩⟩ := by
  rw [store, Option.map_eq_some_iff] at stored
  obtain ⟨mem, found, rfl⟩ := stored
  exact ⟨mem, found, rfl⟩

theorem rangePages_toNat {start size : BitVec 64} (fits : start.toNat + size.toNat ≤ limit) :
    (alignPageDown start).toNat + (rangePages start size).toNat * 4096 =
      (start.toNat + size.toNat + 4095) / 4096 * 4096 := by
  have bound : limit = 0xffff400000000000 := rfl
  have sum : (start + size).toNat = start.toNat + size.toNat := by
    rw [toNat_add]
    omega
  have up := alignPageUp_toNat (show (start + size).toNat + 4095 < 2 ^ 64 by omega)
  have down := alignPageDown_toNat start
  have difference : (alignPageUp (start + size) - alignPageDown start).toNat =
      (alignPageUp (start + size)).toNat - (alignPageDown start).toNat := by
    refine toNat_sub_of_le ?_
    rw [le_def, up, down]
    omega
  rw [rangePages, toNat_udiv, difference, pageSize_toNat, up, down]
  omega

theorem loadSegments_cons {alloc : FrameAllocator σ} {state last : LoadState σ}
    (turned : loadSegments alloc file state (phdr :: rest) = (copies, some last)) :
    ∃ first next more, loadSegment alloc file state phdr = (first, some next) ∧
      loadSegments alloc file next rest = (more, some last) ∧ copies = first ++ more := by
  rw [loadSegments] at turned
  split at turned
  · cases turned
  · rename_i first next turn
    simp only [Prod.mk.injEq] at turned
    exact ⟨first, next, _, turn, Prod.ext rfl turned.2, turned.1.symm⟩

/-- A turn looks at one segment: the storage for threads is set by the ones that ask for it. -/
theorem loadSegment_masterTLS {alloc : FrameAllocator σ} {state next : LoadState σ}
    (turned : loadSegment alloc file state phdr = (copies, some next)) : next.masterTLS =
      if phdr.pType = ptTls then ⟨segmentBytes file phdr, phdr.pFilesz, phdr.pMemsz, phdr.pAlign⟩
      else state.masterTLS := by
  simp only [loadSegment] at turned
  split at turned
  · rename_i load
    rw [load, if_neg (by decide)]
    split at turned
    · cases turned
    · simp only [Prod.mk.injEq, Option.map_eq_some_iff] at turned
      obtain ⟨_, _, _, rfl⟩ := turned
      rfl
  · split at turned
    · rename_i tls
      cases turned
      rw [if_pos tls]
    · rename_i other
      cases turned
      rw [if_neg other]

/-- The last segment that asks for thread-local storage. -/
def lastTLS (phdrs : List Elf64Phdr) : Option Elf64Phdr := (phdrs.filter fun phdr => phdr.pType = ptTls).getLast?

/-- What the thread-local storage of a program is: that of the last segment, or as it was. -/
theorem loadSegments_masterTLS {alloc : FrameAllocator σ} {state last : LoadState σ}
    (turned : loadSegments alloc file state phdrs = (copies, some last)) :
    last.masterTLS = ((lastTLS phdrs).map fun phdr =>
      ⟨segmentBytes file phdr, phdr.pFilesz, phdr.pMemsz, phdr.pAlign⟩).getD state.masterTLS := by
  induction phdrs generalizing state copies with
  | nil =>
    cases turned
    rfl
  | cons phdr rest ih =>
    obtain ⟨_, next, _, turn, turns, _⟩ := loadSegments_cons turned
    rw [ih turns, loadSegment_masterTLS turn, lastTLS, lastTLS]
    by_cases tls : phdr.pType = ptTls
    · rw [if_pos tls, List.filter_cons_of_pos (by simpa using tls), List.getLast?_cons]
      cases (rest.filter fun phdr => phdr.pType = ptTls).getLast? <;> rfl
    · rw [if_neg tls, List.filter_cons_of_neg (by simpa using tls)]

end Loop

end LunaOS.ElfImage
