import LunaOS.ElfBounds
import LunaOS.ElfFidelity

/-! The memory of a program's first thread (`taskingInitializeThreadMemory` of
`tasking/tasking.cpp`), write by write. Its stack, its thread-local storage and the
page of its arguments all come from `allocateStack`, which hands out a pointer eight
bytes below the pages it maps. The sizes and the alignment come from the program's
last TLS header, or are zero. -/
namespace LunaOS.ThreadSetup
open BitVec hiding and_self
open ByteMemory PageArithmetic PageTables RangeAllocator UserspaceAllocator ElfLoader ElfBounds ElfImage ElfFidelity
open BitmapAllocator (physicalAllocator)

/-- What a thread's memory is set up with: the alignments `ALIGN_UP` divides by, the
writes up to the end or to the one that faults, and the result. -/
structure Setup (σ : Type) where
  aligned : List (BitVec 64)
  writes : List Write
  created : Option (ThreadMemory × Process σ)

section Model
variable {σ : Type} (alloc : FrameAllocator σ)

/-- Writes in order; the one that faults is the last. -/
def writeAll (proc : Process σ) : List Write → List Write × Option (Process σ)
  | [] => ([], some proc)
  | write :: rest =>
    match store proc write.base write.count write.bytes with
    | none => ([write], none)
    | some next =>
      let (more, last) := writeAll next rest
      (write :: more, last)

/-- `taskingInitializeThreadMemory` of a user thread, with what it divides by and
what it writes. -/
def setupThread (kernelRanges : List AddressRange) (state : LoadState σ) : Setup σ :=
  let stack := allocateStack alloc state.proc userspaceStackSize
  let stackEnd := stack.1 + userspaceStackSize
  let interrupt := allocateInterruptStack alloc kernelRanges stack.2 interruptStackSize
  let tls := state.masterTLS
  if tls.alignment = 0 then ⟨[tls.alignment], [], none⟩
  else
    let area := allocateStack alloc interrupt.2.2 (tlsSize tls)
    match writeAll area.2 (tlsWrites tls area.1) with
    | (writes, none) => ⟨[tls.alignment], writes, none⟩
    | (writes, some proc) =>
      let page := allocateStack alloc proc 4096
      let top := writeAll page.2 (topWrites stackEnd page.1)
      ⟨[tls.alignment, tls.alignment], writes ++ top.1, top.2.map fun proc =>
        (⟨stack.1, stackEnd, interrupt.1, interrupt.1 + interruptStackSize, area.1, area.1 + tlsSize tls,
          area.1 + alignUp tls.totalSize tls.alignment, page.1, stackEnd - 24 - threadStateSize⟩, proc)⟩

theorem writeAll_last (proc : Process σ) (writes : List Write) :
    (writeAll proc writes).2 = writes.foldlM performWrite proc := by
  induction writes generalizing proc with
  | nil => rfl
  | cons write rest ih =>
    rw [writeAll, List.foldlM_cons, performWrite]
    cases store proc write.base write.count write.bytes with
    | none => rfl
    | some next => exact ih next

/-- The record is one of the same run. -/
theorem setupThread_created (kernelRanges : List AddressRange) (state : LoadState σ) :
    (setupThread alloc kernelRanges state).created = taskingInitializeThreadMemory alloc kernelRanges state := by
  rw [setupThread, initialize_writes]
  dsimp only
  split
  · rfl
  · simp only [← writeAll_last]
    cases writeAll _ (tlsWrites state.masterTLS _) with
    | mk writes reached =>
      cases reached with
      | none => rfl
      | some proc => rw [Option.bind_some]

end Model

/-! ## Pages -/

def InPages (pages : List Addr) (virt : Addr) : Prop := ∃ page ∈ pages, (virt - page).toNat < 4096

theorem inPages_iff {start pages : BitVec 64} (few : pages.toNat ≤ 2 ^ 52) (virt : Addr) :
    InPages (pagesFrom start pages) virt ↔ (virt - start).toNat < pages.toNat * 4096 := by
  have place (k : Nat) (below : k < pages.toNat) : (BitVec.ofNat 64 k * pageSize).toNat = k * 4096 := by
    rw [toNat_mul, pageSize_toNat, toNat_ofNat]
    omega
  constructor
  · rintro ⟨page, member, near⟩
    obtain ⟨k, below, rfl⟩ := List.mem_map.mp member
    have below := List.mem_range.mp below
    have value := place k below
    bv_omega
  · intro inside
    have below : (virt - start).toNat / 4096 < pages.toNat := Nat.div_lt_of_lt_mul (by omega)
    refine ⟨_, List.mem_map.mpr ⟨_, List.mem_range.mpr below, rfl⟩, ?_⟩
    have value := place _ below
    bv_omega

theorem pageCount_le (size : BitVec 64) : (alignPageUp size / pageSize).toNat * 4096 ≤ 2 ^ 64 - 4096 := by
  have wide := (alignPageUp size).isLt
  rw [toNat_udiv, pageSize_toNat]
  omega

/-- The bytes of an area that lie in its pages are those from the ninth on. -/
theorem area_inside_iff (ranges : List AddressRange) (size offset : BitVec 64) :
    InPages (pagesIn ranges size) (stackPointer ranges size + offset) ↔ rangeGiven ranges size ≠ 0 ∧
      8 ≤ offset.toNat ∧ offset.toNat < 8 + (alignPageUp size / pageSize).toNat * 4096 := by
  have count := pageCount_le size
  rw [pagesIn, stackPointer]
  by_cases refused : rangeGiven ranges size = 0
  · simp [InPages, refused]
  · have shift : rangeGiven ranges size - 8 + offset - rangeGiven ranges size = offset - 8 := by bv_omega
    rw [if_neg refused, if_neg refused, inPages_iff (by omega), shift]
    have eight : (8 : BitVec 64).toNat = 8 := rfl
    have wide := offset.isLt
    simp only [ne_eq, refused, not_false_eq_true, true_and, toNat_sub, eight]
    omega

/-- The ranges a request is made from, and its size. -/
def request {σ : Type} (state : LoadState σ) : Purpose → List AddressRange × BitVec 64
  | .stack => (state.proc.memoryAllocator, userspaceStackSize)
  | .tls | .masterTLS => (rangesLeft state.proc.memoryAllocator userspaceStackSize, tlsSize state.masterTLS)
  | .argv =>
    (rangesLeft (rangesLeft state.proc.memoryAllocator userspaceStackSize) (tlsSize state.masterTLS), 4096)

section Requests
variable {σ : Type} {alloc : FrameAllocator σ} {proc : Process σ}

/-- The pages allocated for a purpose. -/
def pagesFor (state : LoadState σ) (purpose : Purpose) : List Addr :=
  pagesIn (request state purpose).1 (request state purpose).2

/-- Where the area of a purpose begins. -/
def areaStart (state : LoadState σ) (purpose : Purpose) : Addr :=
  stackPointer (request state purpose).1 (request state purpose).2

theorem mem_writeAll {write : Write} {writes : List Write} (member : write ∈ (writeAll proc writes).1) :
    write ∈ writes := by
  induction writes generalizing proc with
  | nil => exact member
  | cons first rest ih =>
    rw [writeAll] at member
    split at member
    · rw [List.mem_singleton.mp member]
      exact List.mem_cons_self
    · rcases List.mem_cons.mp member with rfl | later
      · exact List.mem_cons_self
      · exact List.mem_cons_of_mem _ (ih later)

theorem writeAll_head (first : Write) (rest : List Write) : first ∈ (writeAll proc (first :: rest)).1 := by
  rw [writeAll]
  split
  · exact List.mem_singleton_self first
  · exact List.mem_cons_self

/-- An empty write does not fault, so a row of writes gets to the first that is not. -/
theorem writeAll_reaches {writes : List Write} (filled : ∃ write ∈ writes, 0 < write.count) :
    ∃ write ∈ (writeAll proc writes).1, 0 < write.count := by
  induction writes generalizing proc with
  | nil =>
    obtain ⟨_, member, _⟩ := filled
    cases member
  | cons first rest ih =>
    by_cases empty : first.count = 0
    · have stored : store proc first.base first.count first.bytes = some proc := by
        rw [empty]
        rfl
      obtain ⟨other, member, pos⟩ := filled
      rcases List.mem_cons.mp member with rfl | later
      · omega
      · obtain ⟨found, among, large⟩ : ∃ write ∈ (writeAll proc rest).1, 0 < write.count :=
          ih ⟨other, later, pos⟩
        rw [writeAll, stored]
        exact ⟨found, List.mem_cons_of_mem _ among, large⟩
    · exact ⟨first, writeAll_head first rest, Nat.pos_of_ne_zero empty⟩

/-- Without an alignment nothing is written. With one, the thread-local storage is
written first, and what follows is the top of the stack and the arguments. -/
theorem setupThread_cases (kernelRanges : List AddressRange) (state : LoadState σ) :
    state.masterTLS.alignment = 0 ∧ (setupThread alloc kernelRanges state).aligned = [0] ∧
      (setupThread alloc kernelRanges state).writes = [] ∨ state.masterTLS.alignment ≠ 0 ∧
      (∀ alignment ∈ (setupThread alloc kernelRanges state).aligned, alignment = state.masterTLS.alignment) ∧
      ∃ (proc : Process σ) (more : List Write), (setupThread alloc kernelRanges state).writes =
          (writeAll proc (tlsWrites state.masterTLS (areaStart state .tls))).1 ++ more ∧
        ∀ write ∈ more, write ∈ topWrites (areaStart state .stack + userspaceStackSize) (areaStart state .argv) := by
  unfold setupThread
  simp only
  by_cases zero : state.masterTLS.alignment = 0
  · simp only [zero, ↓reduceIte, and_self, true_or]
  · refine .inr ⟨zero, ?_⟩
    simp only [zero, ↓reduceIte]
    simp only [allocateInterruptStack_eq, allocateStack_eq, stackPages]
    cases ran : writeAll _ (tlsWrites state.masterTLS
        (stackPointer (rangesLeft state.proc.memoryAllocator userspaceStackSize) (tlsSize state.masterTLS))) with
    | mk writes last =>
      cases last with
      | none =>
        exact ⟨fun _ member => List.mem_singleton.mp member, _, [],
          (congrArg Prod.fst ran.symm).trans (List.append_nil _).symm, fun _ member => by cases member⟩
      | some next =>
        have kept := writes_ranges ((writeAll_last _ _).symm.trans (congrArg Prod.snd ran))
        obtain rfl := congrArg Prod.fst ran
        dsimp only
        refine ⟨fun _ member => by simpa using member, _, _, rfl, fun write member => ?_⟩
        have among := mem_writeAll member
        rw [kept] at among
        exact among

end Requests

/-! ## Writes and pages -/

section Strays
variable {σ : Type} {alloc : FrameAllocator σ} {state : LoadState σ} {write : Write}

/-- A byte of the write is in none of the pages allocated for its purpose. -/
def Stray (state : LoadState σ) (write : Write) : Prop :=
  ∃ i < write.count, ¬ InPages (pagesFor state write.purpose) (write.base + BitVec.ofNat 64 i)

theorem byte_inside_iff (state : LoadState σ) (purpose : Purpose) (offset : BitVec 64) :
    InPages (pagesFor state purpose) (areaStart state purpose + offset) ↔
      rangeGiven (request state purpose).1 (request state purpose).2 ≠ 0 ∧ 8 ≤ offset.toNat ∧
        offset.toNat < 8 + (alignPageUp (request state purpose).2 / pageSize).toNat * 4096 :=
  area_inside_iff _ _ offset

theorem start_outside (state : LoadState σ) (purpose : Purpose) (offset : BitVec 64) (below : offset.toNat < 8) :
    ¬ InPages (pagesFor state purpose) (areaStart state purpose + offset) := by
  intro inside
  have above := ((byte_inside_iff state purpose offset).mp inside).2.1
  omega

/-- The name of the program lies below its page. -/
theorem argv_outside (member : write ∈ topWrites stackEnd (areaStart state .argv)) (argv : write.purpose = .argv) :
    ∀ i < write.count, ¬ InPages (pagesFor state write.purpose) (write.base + BitVec.ofNat 64 i) := by
  intro i below
  simp only [topWrites, List.mem_cons, List.not_mem_nil, or_false] at member
  rcases member with rfl | rfl | rfl | rfl | rfl | rfl
  all_goals cases argv
  have length : i < 5 := below
  refine start_outside state .argv _ ?_
  rw [toNat_ofNat]
  omega

section Top
variable (member : write ∈ topWrites (areaStart state .stack + userspaceStackSize) argv)
  (stack : write.purpose = .stack)
include member stack

/-- The top of the stack, by its distance from the pointer. -/
theorem stack_offset : ∃ offset : BitVec 64, write.base = areaStart state .stack + offset ∧
      8 ≤ offset.toNat ∧ offset.toNat + write.count ≤ 40960 ∧ 0 < write.count := by
  simp only [topWrites, List.mem_cons, List.not_mem_nil, or_false] at member
  rcases member with rfl | rfl | rfl | rfl | rfl | rfl
  · exact ⟨40952, by simp only [userspaceStackSize, pageSize]; bv_omega, by decide, by simp, by simp⟩
  · cases stack
  · exact ⟨40944, by simp only [userspaceStackSize, pageSize]; bv_omega, by decide, by simp, by simp⟩
  · exact ⟨40936, by simp only [userspaceStackSize, pageSize]; bv_omega, by decide, by simp, by simp⟩
  · refine ⟨40872, ?_, by decide, by simp, by simp⟩
    simp only [userspaceStackSize, pageSize, threadStateSize]
    bv_omega
  · refine ⟨40920, ?_, by decide, by simp, by simp⟩
    simp only [userspaceStackSize, pageSize, threadStateSize]
    bv_omega

theorem stack_inside_iff : ¬ Stray state write ↔ rangeGiven state.proc.memoryAllocator userspaceStackSize ≠ 0 := by
  obtain ⟨offset, base, above, within, pos⟩ := stack_offset member stack
  have bytes (i : Nat) (below : i < write.count) : InPages (pagesFor state write.purpose)
      (write.base + BitVec.ofNat 64 i) ↔ rangeGiven state.proc.memoryAllocator userspaceStackSize ≠ 0 := by
    have pages : (alignPageUp userspaceStackSize / pageSize).toNat = 10 := by decide
    have place : (offset + BitVec.ofNat 64 i).toNat = offset.toNat + i := by
      rw [toNat_add, toNat_ofNat]
      omega
    rw [stack, base, BitVec.add_assoc, byte_inside_iff, place]
    refine and_iff_left ?_
    simp only [request, pages]
    omega
  constructor
  · intro inside
    refine (bytes 0 pos).mp ?_
    by_contra outside
    exact inside ⟨0, pos, outside⟩
  · rintro granted ⟨i, below, outside⟩
    exact outside ((bytes i below).mpr granted)

end Top

theorem tlsWrites_purpose (member : write ∈ tlsWrites tls tlsStart) :
    write.purpose = .tls ∨ write.purpose = .masterTLS ∧ write.count = tls.actualSize.toNat := by
  simp only [tlsWrites, List.mem_cons, List.not_mem_nil, or_false] at member
  rcases member with rfl | rfl | rfl
  · exact .inl rfl
  · exact .inr ⟨rfl, rfl⟩
  · exact .inl rfl

/-- The thread-local storage begins below its pages; one without a size has no pages at all. -/
theorem tls_stray (state : LoadState σ) (proc : Process σ) :
    ∃ write ∈ (writeAll proc (tlsWrites state.masterTLS (areaStart state .tls))).1, Stray state write := by
  by_cases none : tlsSize state.masterTLS = 0
  · obtain ⟨write, member, pos⟩ : ∃ write ∈
        (writeAll proc (tlsWrites state.masterTLS (areaStart state .tls))).1, 0 < write.count :=
      writeAll_reaches ⟨_, List.mem_cons_of_mem _ (List.mem_cons_of_mem _ List.mem_cons_self), by simp⟩
    refine ⟨write, member, 0, pos, ?_⟩
    have bare (purpose : Purpose) (tls : request state purpose = request state .tls) (virt : Addr) :
        ¬ InPages (pagesFor state purpose) virt := by
      have pages : (alignPageUp 0 / pageSize).toNat = 0 := by decide
      have split : virt = areaStart state purpose + (virt - areaStart state purpose) := by bv_omega
      rw [split, byte_inside_iff, tls]
      simp only [request, none, pages]
      omega
    rcases tlsWrites_purpose (mem_writeAll member) with tls | ⟨master, _⟩
    · rw [tls]
      exact bare .tls rfl _
    · rw [master]
      exact bare .masterTLS rfl _
  · have pos : 0 < (tlsSize state.masterTLS).toNat := by bv_omega
    exact ⟨_, writeAll_head _ _, 0, pos, start_outside state .tls 0 (by decide)⟩

/-- No division by zero in `ALIGN_UP`, no more than `totalSize` bytes of the master TLS
are copied, and every write stays in the pages allocated for its purpose. -/
structure Proper (alloc : FrameAllocator σ) (kernelRanges : List AddressRange) (state : LoadState σ) : Prop where
  aligns : ∀ alignment ∈ (setupThread alloc kernelRanges state).aligned, alignment ≠ 0
  copies : ∀ write ∈ (setupThread alloc kernelRanges state).writes, write.purpose = .masterTLS →
    write.count ≤ state.masterTLS.totalSize.toNat
  inside : ∀ write ∈ (setupThread alloc kernelRanges state).writes, ¬ Stray state write

theorem aligns_iff (alloc : FrameAllocator σ) (kernelRanges : List AddressRange) (state : LoadState σ) :
    (∀ alignment ∈ (setupThread alloc kernelRanges state).aligned, alignment ≠ 0) ↔
      state.masterTLS.alignment ≠ 0 := by
  rcases setupThread_cases kernelRanges state with ⟨zero, divides, _⟩ | ⟨nonzero, same, _⟩
  · rw [divides, zero]
    simp
  · refine iff_of_true (fun alignment member => ?_) nonzero
    rw [same alignment member]
    exact nonzero

/-- Where a write of the setup comes from. -/
theorem setup_origin (member : write ∈ (setupThread alloc kernelRanges state).writes) :
    state.masterTLS.alignment ≠ 0 ∧ (write ∈ tlsWrites state.masterTLS (areaStart state .tls) ∨
      write ∈ topWrites (areaStart state .stack + userspaceStackSize) (areaStart state .argv)) := by
  rcases setupThread_cases kernelRanges state with ⟨_, _, none⟩ | ⟨nonzero, _, proc, more, split, top⟩
  · rw [none] at member
    cases member
  · rw [split] at member
    rcases List.mem_append.mp member with first | later
    · exact ⟨nonzero, .inl (mem_writeAll first)⟩
    · exact ⟨nonzero, .inr (top write later)⟩

theorem topWrites_purpose (member : write ∈ topWrites stackEnd argv) :
    write.purpose = .stack ∨ write.purpose = .argv := by
  simp only [topWrites, List.mem_cons, List.not_mem_nil, or_false] at member
  rcases member with rfl | rfl | rfl | rfl | rfl | rfl <;> simp

theorem setup_strays (alloc : FrameAllocator σ) (kernelRanges : List AddressRange) (state : LoadState σ)
    (nonzero : state.masterTLS.alignment ≠ 0) : ∃ write ∈ (setupThread alloc kernelRanges state).writes,
      (write.purpose = .tls ∨ write.purpose = .masterTLS) ∧ Stray state write := by
  rcases setupThread_cases kernelRanges state with ⟨zero, _⟩ | ⟨_, _, proc, more, split, _⟩
  · exact absurd zero nonzero
  · obtain ⟨write, member, stray⟩ := tls_stray state proc
    rw [split]
    refine ⟨write, List.mem_append_left _ member, ?_, stray⟩
    exact (tlsWrites_purpose (mem_writeAll member)).imp_right And.left

end Strays

/-- The setup of a loaded program's first thread, part by part. Its division is safe
exactly when the last TLS header has an alignment, its copy is bounded exactly when that
header's file size is, and what it writes to a stack it was granted stays there; but some
of its thread-local storage and all of its arguments lie below their pages. -/
theorem thread_setup_parts {σ : Type} (alloc : FrameAllocator σ) (st : Physical σ) (current : Addr)
    (kernelRanges : List AddressRange) (file : ElfFile) (copies : List Copy) (state : LoadState σ)
    (loaded : loadSegments alloc file ⟨constructProcess alloc st current, ⟨fun _ => 0, 0, 0, 0⟩⟩
      (readPhdrs file) = (copies, some state)) :
    ((∀ alignment ∈ (setupThread alloc kernelRanges state).aligned, alignment ≠ 0) ↔
      ∃ tls, lastTLS (readPhdrs file) = some tls ∧ tls.pAlign ≠ 0) ∧
    (∀ write ∈ (setupThread alloc kernelRanges state).writes,
      (write.purpose = .masterTLS → (write.count ≤ state.masterTLS.totalSize.toNat ↔
        ∃ tls, lastTLS (readPhdrs file) = some tls ∧ tls.pFilesz.toNat ≤ tls.pMemsz.toNat)) ∧
      (write.purpose = .stack →
        (¬ Stray state write ↔ rangeGiven state.proc.memoryAllocator userspaceStackSize ≠ 0)) ∧
      (write.purpose = .argv →
        ∀ i < write.count, ¬ InPages (pagesFor state .argv) (write.base + BitVec.ofNat 64 i))) ∧
    ((∀ alignment ∈ (setupThread alloc kernelRanges state).aligned, alignment ≠ 0) →
      ∃ write ∈ (setupThread alloc kernelRanges state).writes,
        (write.purpose = .tls ∨ write.purpose = .masterTLS) ∧ Stray state write) ∧
    ¬ Proper alloc kernelRanges state := by
  have master := loadSegments_masterTLS loaded
  have safe := aligns_iff alloc kernelRanges state
  have strays := setup_strays alloc kernelRanges state
  refine ⟨?_, fun write member => ⟨fun copied => ?_, fun stack => ?_, fun argv => ?_⟩,
    fun divides => strays (safe.mp divides), fun proper => ?_⟩
  · rw [safe, master]
    cases lastTLS (readPhdrs file) <;> simp
  · obtain ⟨nonzero, first | top⟩ := setup_origin member
    · rcases tlsWrites_purpose first with tls | ⟨_, count⟩
      · exact absurd (tls.symm.trans copied) (by decide)
      · rw [count, master]
        rw [master] at nonzero
        cases found : lastTLS (readPhdrs file) with
        | none => simp [found] at nonzero
        | some tls => simp
    · rcases topWrites_purpose top with other | other <;> exact absurd (other.symm.trans copied) (by decide)
  · obtain ⟨_, first | top⟩ := setup_origin member
    · rcases tlsWrites_purpose first with other | ⟨other, _⟩ <;> exact absurd (other.symm.trans stack) (by decide)
    · exact stack_inside_iff top stack
  · obtain ⟨_, first | top⟩ := setup_origin member
    · rcases tlsWrites_purpose first with other | ⟨other, _⟩ <;> exact absurd (other.symm.trans argv) (by decide)
    · have outside := argv_outside top argv
      rw [argv] at outside
      exact outside
  · obtain ⟨write, member, _, stray⟩ := strays (safe.mp proper.aligns)
    exact proper.inside write member stray

/-- A file with a TLS header and nothing else. -/
def tlsFile (filesz memsz align : BitVec 64) : ElfFile := elfFile [⟨ptTls, 0, 0, filesz, memsz, align⟩] []

/-- The segments of a file, loaded on the machine of the samples. -/
def loadSample (file : ElfFile) : List Copy × Option (LoadState BitmapAllocator.Allocator) :=
  loadSegments physicalAllocator file
    ⟨constructProcess physicalAllocator stockedSpace stockedRoot.val, ⟨fun _ => 0, 0, 0, 0⟩⟩
    (readPhdrs file)

/-- What is seen of a setup. -/
structure Seen where
  totalSize : BitVec 64
  aligned : List (BitVec 64)
  writes : List (Purpose × Addr × Nat)
  tlsPages : List Addr
  argvPages : List Addr
  deriving DecidableEq

def observe (state : LoadState BitmapAllocator.Allocator) : Seen :=
  let setup := setupThread physicalAllocator [] state
  ⟨state.masterTLS.totalSize, setup.aligned, setup.writes.map fun write => (write.purpose, write.base, write.count),
    pagesFor state .tls, pagesFor state .argv⟩

/-- A file whose TLS header is as it should be: the thread is set up, below its pages. -/
theorem thread_setup_parts_tls : ∃ copies state, loadSample (tlsFile 4 8 8) = (copies, some state) ∧
    (∃ tls, lastTLS (readPhdrs (tlsFile 4 8 8)) = some tls ∧ tls.pAlign ≠ 0) ∧
    ∃ write ∈ (setupThread physicalAllocator [] state).writes,
      (write.purpose = .tls ∨ write.purpose = .masterTLS) ∧ Stray state write := by
  have loads : (loadSample (tlsFile 4 8 8)).2.isSome = true := by decide +kernel
  obtain ⟨state, ended⟩ := Option.isSome_iff_exists.mp loads
  have loaded : loadSample (tlsFile 4 8 8) = ((loadSample (tlsFile 4 8 8)).1, some state) := Prod.ext rfl ended
  have found : lastTLS (readPhdrs (tlsFile 4 8 8)) = some ⟨ptTls, 0, 0, 4, 8, 8⟩ := by decide +kernel
  obtain ⟨divides, _, strays, _⟩ := thread_setup_parts physicalAllocator stockedSpace stockedRoot.val []
    (tlsFile 4 8 8) _ state loaded
  exact ⟨_, state, loaded, ⟨_, found, by decide⟩, strays (divides.mpr ⟨_, found, by decide⟩)⟩

/-- Without a TLS header the setup divides by zero. With one whose file size is larger than
its memory size it copies 16 bytes where there is room for 8, and the storage from `0xaff8`
on and the name at `0xbff8` begin below their pages `0xb000` and `0xc000`. -/
theorem setup_samples : Accepted (elfFile [] []) ∧
    (loadSample (elfFile [] [])).2.map observe = some ⟨0, [0], [], [0xb000], [0xc000]⟩ ∧ Accepted (tlsFile 16 8 8) ∧
    (loadSample (tlsFile 16 8 8)).2.map observe = some ⟨8, [8, 8],
      [(.tls, 0xaff8, 16), (.masterTLS, 0xaff8, 16), (.tls, 0xb000, 8), (.stack, 0xaff0, 1), (.argv, 0xbff8, 5),
        (.stack, 0xafe8, 8), (.stack, 0xafe0, 4), (.stack, 0xafa0, 8), (.stack, 0xafd0, 8)], [0xb000], [0xc000]⟩ ∧
    ∀ file ∈ [elfFile [] [], tlsFile 16 8 8], ∀ state, (loadSample file).2 = some state →
      ¬ Proper physicalAllocator [] state := by
  have bare : (loadSample (elfFile [] [])).2.map observe = some ⟨0, [0], [], [0xb000], [0xc000]⟩ := by decide +kernel
  have seen : (loadSample (tlsFile 16 8 8)).2.map observe = some ⟨8, [8, 8],
      [(.tls, 0xaff8, 16), (.masterTLS, 0xaff8, 16), (.tls, 0xb000, 8), (.stack, 0xaff0, 1), (.argv, 0xbff8, 5),
        (.stack, 0xafe8, 8), (.stack, 0xafe0, 4), (.stack, 0xafa0, 8), (.stack, 0xafd0, 8)], [0xb000], [0xc000]⟩ := by
    decide +kernel
  refine ⟨⟨by decide, by decide⟩, bare, ⟨by decide, by decide⟩, seen, fun file member state ended proper => ?_⟩
  simp only [List.mem_cons, List.not_mem_nil, or_false] at member
  rcases member with rfl | rfl
  · rw [ended] at bare
    have divides : (setupThread physicalAllocator [] state).aligned = [0] :=
      congrArg Seen.aligned (Option.some.inj bare)
    refine proper.aligns 0 ?_ rfl
    rw [divides]
    exact List.mem_singleton_self 0
  · rw [ended] at seen
    have total : state.masterTLS.totalSize = 8 := congrArg Seen.totalSize (Option.some.inj seen)
    have writes := congrArg Seen.writes (Option.some.inj seen)
    have copied : (Purpose.masterTLS, (0xaff8 : Addr), 16) ∈ (observe state).writes := by
      rw [writes]
      decide
    obtain ⟨write, member, same⟩ := List.mem_map.mp copied
    obtain ⟨purpose, _, count⟩ : write.purpose = .masterTLS ∧ write.base = 0xaff8 ∧ write.count = 16 := by
      simpa using same
    have bounded := proper.copies write member purpose
    rw [count, total] at bounded
    exact absurd bounded (by decide)

end LunaOS.ThreadSetup
