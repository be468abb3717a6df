import LunaOS.ElfLoader

/-! What a load reads from the buffer of the file. No offset and no size of the
headers is compared with the size of the file, so the reads stay in the buffer
exactly for the files whose headers happen to point inside. -/
namespace LunaOS.ElfBounds
open PageTables RangeAllocator UserspaceAllocator ElfLoader

/-- Every byte of a copy is in the buffer. -/
def Inside (file : ElfFile) (copy : Copy) : Prop :=
  ∀ i < copy.count, (copy.offset + BitVec.ofNat 64 i).toNat < file.fileSize

/-- A part of the file, without wrapping around. -/
def Part (file : ElfFile) (offset : BitVec 64) (count : Nat) : Prop :=
  count = 0 ∨ offset.toNat + count ≤ file.fileSize

/-- The file is not read in. -/
def Failed (file : ElfFile) : Prop :=
  file.opened = false ∨ file.readOk = false ∨ file.readBytes.toNat ≠ file.fileSize

def Accepted (file : ElfFile) : Prop :=
  elfCheckFile (readHeader file) = true ∧ elfCheckSupported (readHeader file) = true

/-- A segment whose bytes are copied. -/
def Copied (phdr : Elf64Phdr) : Prop := phdr.pType = ptLoad ∨ phdr.pType = ptTls

/-- The header is there, and what an accepted header leads to is part of the file. -/
structure PointsInside (file : ElfFile) : Prop where
  header : ehdrSize ≤ file.fileSize
  table : Accepted file → Part file (readHeader file).ePhoff (phdrSize * (readHeader file).ePhnum.toNat)
  segments : Accepted file → ∀ phdr ∈ readPhdrs file, Copied phdr → Part file phdr.pOffset phdr.pFilesz.toNat

theorem inside_iff {file : ElfFile} (small : file.fileSize < 2 ^ 32) (offset : BitVec 64) (count : Nat) :
    Inside file ⟨offset, count⟩ ↔ Part file offset count := by
  constructor
  · intro inside
    by_contra outside
    obtain ⟨pos, above⟩ := not_or.mp outside
    have start := inside 0 (Nat.pos_of_ne_zero pos)
    have last := inside (file.fileSize - offset.toNat) (by dsimp only; omega)
    simp only [BitVec.toNat_add, BitVec.toNat_ofNat] at start last
    omega
  · rintro (rfl | fits) i below
    · exact absurd below (Nat.not_lt_zero i)
    · dsimp only at below ⊢
      rw [BitVec.toNat_add, BitVec.toNat_ofNat]
      omega

theorem inside_shorter {file : ElfFile} (inside : Inside file ⟨offset, count⟩) (fewer : less ≤ count) :
    Inside file ⟨offset, less⟩ := fun i below => inside i (Nat.lt_of_lt_of_le below fewer)

section Copies
variable {σ : Type} {alloc : FrameAllocator σ} {file : ElfFile}

theorem storeReach_of_some (stored : storeBytes mem pml4Addr base count bytes = some after) :
    count ≤ storeReach mem pml4Addr base count bytes := by
  rw [storeBytes] at stored
  rw [storeReach]
  split at stored
  · split at stored
    · assumption
    · cases stored
  · cases stored

/-- The copies of a turn are of its segment, and whole if the turn ends. -/
theorem loadSegment_copies {state : LoadState σ} (turned : loadSegment alloc file state phdr = (copies, next)) :
    (∀ copy ∈ copies, Copied phdr ∧ copy.offset = phdr.pOffset ∧ copy.count ≤ phdr.pFilesz.toNat) ∧
      (next.isSome → Copied phdr → ⟨phdr.pOffset, phdr.pFilesz.toNat⟩ ∈ copies) := by
  simp only [loadSegment] at turned
  split at turned
  · rename_i load
    split at turned
    · cases turned
      exact ⟨fun _ member => (List.not_mem_nil member).elim, fun ended => by cases ended⟩
    · rename_i proc reserved
      cases turned
      refine ⟨fun copy member => ?_, fun ended _ => ?_⟩
      · cases List.mem_singleton.mp member
        exact ⟨.inl load, rfl, Nat.min_le_left _ _⟩
      · rw [Option.isSome_map, store, Option.isSome_map, Option.isSome_iff_exists] at ended
        obtain ⟨mem, stored⟩ := ended
        have whole := storeReach_of_some stored
        rw [List.mem_singleton, Nat.min_eq_left (by omega)]
  · rename_i other
    split at turned
    · rename_i tls
      cases turned
      refine ⟨fun copy member => ?_, fun _ _ => List.mem_singleton_self _⟩
      cases List.mem_singleton.mp member
      exact ⟨.inr tls, rfl, Nat.le_refl _⟩
    · rename_i neither
      cases turned
      exact ⟨fun _ member => (List.not_mem_nil member).elim, fun _ copied => (copied.elim other neither).elim⟩

/-- The copies of the loop are of its segments, and all of them if the loop ends. -/
theorem loadSegments_copies {state : LoadState σ} (turned : loadSegments alloc file state phdrs = (copies, last)) :
    (∀ copy ∈ copies, ∃ phdr ∈ phdrs, Copied phdr ∧ copy.offset = phdr.pOffset ∧ copy.count ≤ phdr.pFilesz.toNat) ∧
      (last.isSome → ∀ phdr ∈ phdrs, Copied phdr → ⟨phdr.pOffset, phdr.pFilesz.toNat⟩ ∈ copies) := by
  induction phdrs generalizing state copies last with
  | nil =>
    cases turned
    exact ⟨fun _ member => (List.not_mem_nil member).elim, fun _ _ member => (List.not_mem_nil member).elim⟩
  | cons phdr rest ih =>
    rw [loadSegments] at turned
    split at turned
    · rename_i first turn
      cases turned
      refine ⟨fun copy member => ?_, fun ended => by cases ended⟩
      exact ⟨phdr, List.mem_cons_self, (loadSegment_copies turn).1 copy member⟩
    · rename_i first next turn
      obtain ⟨here, whole⟩ := loadSegment_copies turn
      obtain ⟨later, all⟩ := ih (Prod.ext rfl rfl : loadSegments alloc file next rest = (_, _))
      cases turned
      refine ⟨fun copy member => ?_, fun ended other member copied => ?_⟩
      · rcases List.mem_append.mp member with early | late
        · exact ⟨phdr, List.mem_cons_self, here copy early⟩
        · obtain ⟨other, among, facts⟩ := later copy late
          exact ⟨other, List.mem_cons_of_mem _ among, facts⟩
      · rcases List.mem_cons.mp member with rfl | member
        · exact List.mem_append_left _ (whole rfl copied)
        · exact List.mem_append_right _ (all ended other member copied)

/-- How far a load goes, and what it has read by then. -/
theorem elfLoad_reads (alloc : FrameAllocator σ) (st : Physical σ) (current : ByteMemory.Addr)
    (kernelRanges : List AddressRange) (file : ElfFile) : let outcome := elfLoad alloc st current kernelRanges file
    (Failed file ∧ outcome.copies = [] ∧ outcome.status ≠ some .success) ∨
      ¬ Failed file ∧ ((¬ Accepted file ∧ outcome.copies = [⟨0, ehdrSize⟩] ∧ outcome.status ≠ some .success) ∨
        Accepted file ∧ ∃ more state last, loadSegments alloc file state (readPhdrs file) = (more, last) ∧
          outcome.copies = ⟨0, ehdrSize⟩ ::
            ⟨(readHeader file).ePhoff, phdrSize * (readHeader file).ePhnum.toNat⟩ :: more ∧
          (outcome.status ≠ none → last.isSome)) := by
  rw [elfLoad]
  split
  · rename_i closed
    exact .inl ⟨.inl (by simpa using closed), rfl, by simp⟩
  rename_i opened
  split
  · rename_i unread
    exact .inl ⟨.inr (by simpa using unread), rfl, by simp⟩
  rename_i read
  refine .inr ⟨fun failed => ?_, ?_⟩
  · rcases failed with closed | unread
    · exact opened (by simp [closed])
    · exact read (by simpa using unread)
  dsimp only
  split
  · rename_i bad
    exact .inl ⟨fun accepted => by simp [accepted.1] at bad, rfl, by simp⟩
  rename_i good
  split
  · rename_i bad
    exact .inl ⟨fun accepted => by simp [accepted.2] at bad, rfl, by simp⟩
  rename_i supported
  refine .inr ⟨⟨by simpa using good, by simpa using supported⟩, ?_⟩
  split
  · rename_i more turned
    exact ⟨more, _, none, turned, rfl, fun ended => absurd rfl ended⟩
  · rename_i more state turned
    refine ⟨more, _, some state, turned, ?_, fun _ => rfl⟩
    split <;> rfl

theorem header_inside_iff (small : file.fileSize < 2 ^ 32) : Inside file ⟨0, ehdrSize⟩ ↔ ehdrSize ≤ file.fileSize := by
  rw [inside_iff small, Part, show (0 : BitVec 64).toNat = 0 from rfl, Nat.zero_add]
  exact or_iff_right (by decide)

/-- A load stays in the buffer, and does not accept what points outside of it, if
the file is not read in or points inside. For a load that ends without a panic this
is also the only way. -/
theorem reads_inside_iff (alloc : FrameAllocator σ) (st : Physical σ) (current : ByteMemory.Addr)
    (kernelRanges : List AddressRange) (file : ElfFile) : let outcome := elfLoad alloc st current kernelRanges file
    let safe := (∀ copy ∈ outcome.copies, Inside file copy) ∧ (¬ PointsInside file → outcome.status ≠ some .success)
    (Failed file ∨ PointsInside file → safe) ∧ (outcome.status ≠ none → safe → Failed file ∨ PointsInside file) := by
  intro outcome safe
  have small : ¬ Failed file → file.fileSize < 2 ^ 32 := by
    intro read
    have count : file.readBytes.toNat = file.fileSize := by
      by_contra other
      exact read (.inr (.inr other))
    rw [← count]
    exact file.readBytes.isLt
  rcases elfLoad_reads alloc st current kernelRanges file with
    ⟨failed, copies, status⟩ | ⟨read, ⟨rejected, copies, status⟩ | ⟨accepted, more, state, last, turned, copies, ended⟩⟩
  · refine ⟨fun _ => ⟨?_, fun _ => status⟩, fun _ _ => .inl failed⟩
    rw [copies]
    exact fun _ member => (List.not_mem_nil member).elim
  · refine ⟨fun either => ⟨?_, fun _ => status⟩, fun _ safe => .inr ⟨?_, ?_, ?_⟩⟩
    · rw [copies, List.forall_mem_singleton, header_inside_iff (small read)]
      exact (either.resolve_left read).header
    · have inside := safe.1
      rwa [copies, List.forall_mem_singleton, header_inside_iff (small read)] at inside
    · exact fun accepted => absurd accepted rejected
    · exact fun accepted => absurd accepted rejected
  · obtain ⟨segments, whole⟩ := loadSegments_copies turned
    refine ⟨fun either => ?_, fun returned safe => .inr ?_⟩
    · have points := either.resolve_left read
      refine ⟨?_, fun outside => absurd points outside⟩
      rw [copies, List.forall_mem_cons, List.forall_mem_cons, header_inside_iff (small read), inside_iff (small read)]
      refine ⟨points.header, points.table accepted, fun copy member => ?_⟩
      obtain ⟨phdr, among, copied, offset, count⟩ := segments copy member
      have inside := (inside_iff (small read) _ _).mpr (points.segments accepted phdr among copied)
      rw [← offset] at inside
      exact inside_shorter inside count
    · have inside := safe.1
      rw [copies, List.forall_mem_cons, List.forall_mem_cons, header_inside_iff (small read), inside_iff (small read)]
        at inside
      obtain ⟨header, table, each⟩ := inside
      refine ⟨header, fun _ => table, fun _ phdr among copied => ?_⟩
      exact (inside_iff (small read) _ _).mp (each _ (whole (ended returned) phdr among copied))

end Copies

/-- An empty file, over a buffer that nothing was written to. -/
def emptyFile : ElfFile := ⟨true, true, 0, [], fun _ => 0⟩

/-- The header of an empty file is read all the same. -/
theorem empty_file_overread : let outcome := elfLoad ⟨fun _ => (0, ()), fun _ _ => ()⟩ ⟨fun _ => 0, ()⟩ 0 [] emptyFile
    outcome.status = some .invalidHeader ∧ outcome.copies = [⟨0, 64⟩] ∧
      ¬ ∀ copy ∈ outcome.copies, Inside emptyFile copy := by
  intro outcome
  have copies : outcome.copies = [⟨0, 64⟩] := rfl
  refine ⟨rfl, copies, fun inside => ?_⟩
  rw [copies, List.forall_mem_singleton] at inside
  exact absurd (inside 0 (by decide)) (by decide)

end LunaOS.ElfBounds
