import LunaOS.ElfFormat
import LunaOS.FileDescriptors
import LunaOS.HeapGrowth

/-! The creation of a process (`taskingCreateProcess` of `tasking/tasking.cpp`), up
to the point where one of its standard streams cannot be opened. By then the process
is on the list of the processor, has an address space and its blocks on the heap, and
the volume's current directory is its own; the return of `NULL` takes none of that
back, and `elfLoad` does not look at the result. -/
namespace LunaOS.ProcessCreation
open FileDescriptors (openStreams AllOpen)
open ByteMemory BoundedLoop PageTables RangeAllocator UserspaceAllocator FrameExclusivity HeapAccounting HeapGrowth
open FatFs ElfLoader ElfBounds PageRecycling PageTranslation FreelistSafety

/-- The calls on the volume, with what they do to the current directory. -/
structure FileCalls (Volume Directory : Type) where
  fOpen : Volume → Fil → String → BitVec 8 → Fresult × Volume
  fChdir : Volume → String → Fresult × Volume
  fMkdir : Volume → String → Fresult × Volume
  directory : Volume → Directory
  enter : Directory → String → Directory
  opened : ∀ volume fil name mode, directory (fOpen volume fil name mode).2 = directory volume
  made : ∀ volume path, directory (fMkdir volume path).2 = directory volume
  moved : ∀ volume path, (fChdir volume path).1 = .ok →
    directory (fChdir volume path).2 = enter (directory volume) path

/-- What is put on the heap for a process. -/
inductive Object where
  | proc
  | userspaceAllocator
  | rangeAllocator
  | rangeHeader
  | processEntry
  | list
  | buffer
  deriving DecidableEq, Repr

/-- `sizeof`, or the five pointers of a list's first buffer. -/
def Object.size : Object → BitVec 64
  | .proc => 2072
  | .userspaceAllocator => 48
  | .rangeAllocator => 16
  | .rangeHeader => 32
  | .processEntry => 16
  | .list => 16
  | .buffer => 40

/-- The kernel's heap over its physical memory, with the blocks that are handed out;
the processes of the processor, the last one created first; and the volume. -/
structure Tasking (σ Volume : Type) where
  heap : KernelHeap (Physical σ)
  live : List (Addr × BitVec 64)
  processes : List Addr
  nextPID : BitVec 64
  volume : Volume

/-- A process that stands on the list, before its streams are opened. -/
structure NewProcess (σ : Type) where
  proc : Addr
  pid : BitVec 64
  space : Process σ

section Model
variable {σ Volume Directory : Type} (alloc : FrameAllocator σ) (files : FileCalls Volume Directory)

/-- `operator new`, while `current` is the space; `none` is a kernel panic. -/
def operatorNew (current : Addr) (tasking : Tasking σ Volume) (object : Object) :
    Option (Addr × Tasking σ Volume) := do
  let answer ← heapAllocate (drawPage alloc current) tasking.heap object.size
  let pointer ← answer.pointer
  some (pointer, { tasking with heap := answer.heap, live := (pointer, object.size) :: tasking.live })

/-- One object after the other, whose addresses do not matter here. -/
def newObjects (current : Addr) (tasking : Tasking σ Volume) (objects : List Object) : Option (Tasking σ Volume) :=
  objects.foldlM (fun tasking object => (operatorNew alloc current tasking object).map Prod.snd) tasking

/-- `new k_userspace_allocator`: its ranges are on the heap, its root is a frame. -/
def newUserspaceAllocator (current : Addr) (tasking : Tasking σ Volume) : Option (Process σ × Tasking σ Volume) := do
  let tasking ← newObjects alloc current tasking [.userspaceAllocator, .rangeAllocator, .rangeHeader]
  let space := constructProcess alloc tasking.heap.machine current
  some (space, { tasking with heap := { tasking.heap with machine := space.physical } })

/-- The part of `taskingCreateProcess` before its calls on the volume. -/
def obtainProcess (current : Addr) (tasking : Tasking σ Volume) : Option (NewProcess σ × Tasking σ Volume) := do
  let (proc, tasking) ← operatorNew alloc current tasking .proc
  let (space, tasking) ← newUserspaceAllocator alloc current tasking
  let pid := tasking.nextPID
  let tasking := { tasking with nextPID := pid + 1 }
  let (_, tasking) ← operatorNew alloc current tasking .processEntry
  let tasking := { tasking with processes := proc :: tasking.processes }
  let tasking ← newObjects alloc current tasking [.list, .buffer, .list, .buffer]
  some (⟨proc, pid, space⟩, tasking)

/-- `sprintf(pidStr, "%d", process->pid)` -/
def pidStr (pid : BitVec 64) : String := toString (pid.setWidth 32).toInt

/-- The directory of the process; no result of a call is looked at. -/
def enterDirectories (volume : Volume) (pid : BitVec 64) : Volume :=
  let volume := (files.fChdir volume "/root").2
  let volume := (files.fMkdir volume "proc").2
  let volume := (files.fChdir volume "proc").2
  let volume := (files.fMkdir volume (pidStr pid)).2
  let volume := (files.fChdir volume (pidStr pid)).2
  let volume := (files.fMkdir volume "fd").2
  (files.fChdir volume "fd").2

/-- The standard streams are members of the process. -/
def streams (proc : Addr) : List (Fil × String) :=
  [((proc + 336).toNat, "0"), ((proc + 912).toNat, "1"), ((proc + 1488).toNat, "2")]

/-- `taskingCreateProcess`: `NULL`, or the process with its descriptors. -/
def taskingCreateProcess (current : Addr) (tasking : Tasking σ Volume) :
    Option (Option (NewProcess σ × List Fil) × Tasking σ Volume) := do
  let (new, tasking) ← obtainProcess alloc current tasking
  let volume := enterDirectories files tasking.volume new.pid
  match openStreams files.fOpen volume (streams new.proc) with
  | (none, volume) => some (none, { tasking with volume })
  | (some descriptors, volume) =>
    some (some (new, descriptors), { tasking with volume := (files.fChdir volume "/").2 })

/-- What a load ends with. -/
inductive LoadEnd where
  | returned (status : LoadStatus)
  | panic
  | usesNull
  deriving DecidableEq, Repr

/-- The rest of `elfLoad`, in the space of the process. -/
def loadInto (kernelRanges : List AddressRange) (file : ElfFile) (proc : Process σ) : LoadEnd :=
  match (loadSegments alloc file ⟨proc, ⟨fun _ => 0, 0, 0, 0⟩⟩ (readPhdrs file)).2 with
  | none => .panic
  | some state =>
    match ElfLoader.taskingCreateThread alloc kernelRanges state (readHeader file).eEntry with
    | none => .panic
    | some _ => .returned .success

/-- `elfLoad`: the space it switches to is a field of whatever was created. -/
def elfLoad (current : Addr) (tasking : Tasking σ Volume) (kernelRanges : List AddressRange) (file : ElfFile) :
    LoadEnd :=
  if !file.opened then .returned .failedToOpen
  else if !file.readOk || file.readBytes.toNat != file.fileSize then .returned .failedToRead
  else if !elfCheckFile (readHeader file) then .returned .invalidHeader
  else if !elfCheckSupported (readHeader file) then .returned .unsupportedElf
  else
    match taskingCreateProcess alloc files current tasking with
    | none => .panic
    | some (none, _) => .usesNull
    | some (some (new, _), tasking) =>
      loadInto alloc kernelRanges file { new.space with physical := tasking.heap.machine }

end Model

/-! ## Frames of a growing heap -/

section Frames
variable {σ : Type} {alloc : FrameAllocator σ} {kept : σ → Prop} {heap after : KernelHeap (Physical σ)}

section Kept
variable (draw : ∀ frames, kept frames → kept (alloc.allocatePage frames).2)
include draw

theorem drawPage_keeps (start : kept st.frames) (mapped : drawPage alloc space st virt = some next) :
    kept next.frames := by
  simp only [drawPage] at mapped
  split at mapped
  · cases mapped
  · cases mapped
    exact pagingMapPageInSpace_keeps draw (draw _ start) _ _ _ _

theorem mapTurn_keeps
    (start : kept state.2.frames) (asked : mapTurn (drawPage alloc space) limit state = .again next) :
    kept next.2.frames := by
  simp only [mapTurn] at asked
  split at asked
  · split at asked
    · cases asked
    · rename_i mapped
      rw [← Turn.again.inj asked]
      exact drawPage_keeps draw start mapped
  · cases asked

theorem heapExpand_keeps (start : kept heap.machine.frames)
    (ran : heapExpand (drawPage alloc space) heap = some (grown, after)) : kept after.machine.frames := by
  unfold heapExpand at ran
  split at ran
  · cases ran
    exact start
  · obtain ⟨mapped, looped, ran⟩ := Option.bind_eq_some_iff.mp ran
    cases mapped with
    | none =>
      cases ran
      exact start
    | some machine =>
      obtain ⟨mem, -, ran⟩ := Option.bind_eq_some_iff.mp ran
      cases ran
      obtain ⟨⟨virt, st⟩, holds, left⟩ := iterate_invariant (fun state => kept state.2.frames)
        (fun _ _ holds asked => mapTurn_keeps draw holds asked) start looped
      simp only [mapTurn] at left
      split at left
      · split at left <;> cases left
      · cases left
        exact holds

/-- A level of the recursion that asks for another has grown the heap; one that
found a block has not. -/
theorem heapAllocateTurn_keeps {state : KernelHeap (Physical σ) × Nat} (start : kept state.1.machine.frames) :
    (∀ next, heapAllocateTurn (drawPage alloc space) size state = .again next → kept next.1.machine.frames) ∧
      ∀ answer, heapAllocateTurn (drawPage alloc space) size state = .leave (some answer) →
        kept answer.heap.machine.frames := by
  unfold heapAllocateTurn
  cases FreelistAllocator.allocate state.1.head state.1.mem size with
  | none => exact ⟨fun _ asked => (by cases asked), fun _ left => (by cases left)⟩
  | some found =>
    obtain ⟨pointer, mem⟩ := found
    simp only [afterAllocate]
    split
    · have rest : kept ({ state.1 with mem } : KernelHeap (Physical σ)).machine.frames := start
      cases expanded : heapExpand (drawPage alloc space) { state.1 with mem } with
      | none => exact ⟨fun _ asked => (by cases asked), fun _ left => (by cases left)⟩
      | some reply =>
        obtain ⟨grown, after⟩ := reply
        have holds := heapExpand_keeps draw rest expanded
        cases grown with
        | false =>
          refine ⟨fun _ asked => (by cases asked), fun _ left => ?_⟩
          cases left
          exact holds
        | true =>
          refine ⟨fun _ asked => ?_, fun _ left => (by cases left)⟩
          cases asked
          exact holds
    · refine ⟨fun _ asked => (by cases asked), fun _ left => ?_⟩
      cases left
      exact start

/-- What every draw keeps of the frames, a call on the heap keeps, also when the
heap has to grow on the way. -/
theorem heapAllocate_keeps (start : kept heap.machine.frames) {answer : Answer (Physical σ)}
    (ran : heapAllocate (drawPage alloc space) heap size = some answer) : kept answer.heap.machine.frames := by
  unfold heapAllocate at ran
  split at ran
  · cases ran
    exact start
  · split at ran
    · cases ran
      exact start
    · obtain ⟨last, holds, left⟩ := iterate_invariant (fun state => kept state.1.machine.frames)
        (fun _ next holds => (heapAllocateTurn_keeps draw holds).1 next) start (Option.join_eq_some_iff.mp ran)
      exact (heapAllocateTurn_keeps draw holds).2 answer left

end Kept

end Frames

/-! ## What a creation takes -/

section Growth
variable {σ Volume Directory : Type} {alloc : FrameAllocator σ} {tasking built : Tasking σ Volume}

/-- The objects are on the heap and the processes on the list; frames were only drawn. -/
structure Grows (alloc : FrameAllocator σ) (objects : List Object) (linked : List Addr)
    (before after : Tasking σ Volume) : Prop where
  volume : after.volume = before.volume
  processes : after.processes = linked ++ before.processes
  live : ∃ fresh, after.live = fresh ++ before.live ∧ fresh.map Prod.snd = (objects.map Object.size).reverse
  frames : ∀ kept : σ → Prop, (∀ frames, kept frames → kept (alloc.allocatePage frames).2) →
    kept before.heap.machine.frames → kept after.heap.machine.frames
  accounted : (∃ blocks, Accounted before.heap before.live blocks) → ∃ blocks, Accounted after.heap after.live blocks

theorem Grows.trans {before middle after : Tasking σ Volume} (first : Grows alloc objects linked before middle)
    (second : Grows alloc more later middle after) :
    Grows alloc (objects ++ more) (later ++ linked) before after := by
  obtain ⟨fresh, liveFirst, sizesFirst⟩ := first.live
  obtain ⟨recent, liveSecond, sizesSecond⟩ := second.live
  refine ⟨second.volume.trans first.volume, ?_, ⟨recent ++ fresh, ?_, ?_⟩, fun kept draw start => ?_, fun start => ?_⟩
  · rw [second.processes, first.processes, List.append_assoc]
  · rw [liveSecond, liveFirst, List.append_assoc]
  · rw [List.map_append, sizesFirst, sizesSecond, List.map_append, List.reverse_append]
  · exact second.frames kept draw (first.frames kept draw start)
  · exact second.accounted (first.accounted start)

theorem grows_refl (tasking : Tasking σ Volume) : Grows alloc [] [] tasking tasking :=
  ⟨rfl, rfl, ⟨[], rfl, rfl⟩, fun _ _ start => start, fun start => start⟩

/-- The accounts of the heap do not look at the rest of the machine. -/
theorem accounted_machine {heap : KernelHeap σ} (accounted : Accounted heap live blocks) (machine : σ) :
    Accounted { heap with machine } live blocks :=
  ⟨accounted.sound, accounted.ready, accounted.bounded, accounted.used⟩

theorem size_request (object : Object) : object.size ≠ 0 ∧
    FreelistAllocator.sizeofChunkHeader.toNat + object.size.toNat < 2 ^ 64 := by
  cases object <;> decide

theorem operatorNew_grows (ran : operatorNew alloc current tasking object = some (pointer, built)) :
    Grows alloc [object] [] tasking built := by
  obtain ⟨answer, granted, ran⟩ := Option.bind_eq_some_iff.mp ran
  obtain ⟨found, reply, ran⟩ := Option.bind_eq_some_iff.mp ran
  cases ran
  refine ⟨rfl, rfl, ⟨[(pointer, object.size)], rfl, rfl⟩, fun kept draw start => ?_, fun ⟨blocks, accounted⟩ => ?_⟩
  · exact heapAllocate_keeps draw start granted
  · obtain ⟨same, returned, -, grows⟩ := heapAllocate_returns (drawPage alloc current) accounted object.size
    cases returned.symm.trans granted
    exact grows pointer reply (size_request object).1 (size_request object).2

theorem newObjects_grows (ran : newObjects alloc current tasking objects = some built) :
    Grows alloc objects [] tasking built := by
  induction objects generalizing tasking with
  | nil =>
    cases ran
    exact grows_refl _
  | cons object rest ih =>
    rw [newObjects, List.foldlM_cons] at ran
    obtain ⟨middle, first, ran⟩ := Option.bind_eq_some_iff.mp ran
    obtain ⟨⟨pointer, next⟩, granted, rfl⟩ := Option.map_eq_some_iff.mp first
    exact (operatorNew_grows granted).trans (ih ran)

/-- The blocks a process takes, in the order it takes them. -/
def blocksTaken : List Object :=
  [.proc, .userspaceAllocator, .rangeAllocator, .rangeHeader, .processEntry, .list, .buffer, .list, .buffer]

/-- The root of the new space is the frame that is drawn after the first blocks. -/
theorem obtainProcess_spec (ran : obtainProcess alloc current tasking = some (new, built)) :
    ∃ middle : Tasking σ Volume,
      Grows alloc [.proc, .userspaceAllocator, .rangeAllocator, .rangeHeader] [] tasking middle ∧
      new.space = constructProcess alloc middle.heap.machine current ∧
      Grows alloc [.processEntry, .list, .buffer, .list, .buffer] [new.proc]
        { middle with heap := { middle.heap with machine := new.space.physical } } built := by
  obtain ⟨⟨proc, first⟩, granted, ran⟩ := Option.bind_eq_some_iff.mp ran
  obtain ⟨⟨space, second⟩, inner, ran⟩ := Option.bind_eq_some_iff.mp ran
  obtain ⟨⟨entry, third⟩, listed, ran⟩ := Option.bind_eq_some_iff.mp ran
  obtain ⟨fourth, lists, ran⟩ := Option.bind_eq_some_iff.mp ran
  obtain ⟨middle, ranges, inner⟩ := Option.bind_eq_some_iff.mp inner
  cases ran
  cases inner
  refine ⟨middle, (operatorNew_grows granted).trans (newObjects_grows ranges), rfl, ?_⟩
  obtain ⟨volume, processes, live, frames, accounted⟩ := operatorNew_grows listed
  have linked : Grows alloc [.processEntry] [proc] { middle with heap := _ }
      { third with processes := proc :: third.processes } :=
    ⟨volume, congrArg (proc :: ·) processes, live, frames, accounted⟩
  exact linked.trans (newObjects_grows lists)

theorem obtainProcess_grows (ran : obtainProcess alloc current tasking = some (new, built)) :
    Grows alloc blocksTaken [new.proc] tasking built := by
  obtain ⟨middle, before, space, after⟩ := obtainProcess_spec ran
  have rooted : Grows alloc [] [] middle { middle with heap := { middle.heap with machine := new.space.physical } } := by
    refine ⟨rfl, rfl, ⟨[], rfl, rfl⟩, fun kept draw start => ?_,
      fun ⟨blocks, accounted⟩ => ⟨blocks, accounted_machine accounted _⟩⟩
    rw [space]
    exact draw _ start
  exact (before.trans rooted).trans after

end Growth

/-- The frame of the new space was free before and is held after. -/
theorem root_held {σ Volume : Type} {alloc : LawfulAllocator σ} {tasking built : Tasking σ Volume}
    {new : NewProcess σ} (sound : alloc.sound tasking.heap.machine.frames)
    (ran : obtainProcess alloc current tasking = some (new, built)) (nonzero : new.space.pml4Physical ≠ 0) :
    ¬ alloc.held tasking.heap.machine.frames new.space.pml4Physical ∧
      alloc.held built.heap.machine.frames new.space.pml4Physical := by
  have draw : ∀ frame frames, alloc.sound frames ∧ alloc.held frames frame →
      alloc.sound (alloc.allocatePage frames).2 ∧ alloc.held (alloc.allocatePage frames).2 frame := by
    rintro frame frames ⟨sound, held⟩
    refine ⟨alloc.drawn_sound _ sound, ?_⟩
    by_cases null : (alloc.allocatePage frames).1 = 0
    · exact (alloc.exhausted _ sound null frame).mpr held
    · exact (alloc.taken _ sound null frame).mpr (.inl held)
  obtain ⟨middle, before, space, after⟩ := obtainProcess_spec ran
  have soundMiddle := before.frames _ alloc.drawn_sound sound
  have root : new.space.pml4Physical = (alloc.allocatePage middle.heap.machine.frames).1 := by
    rw [space]
    rfl
  have frames : new.space.physical.frames = (alloc.allocatePage middle.heap.machine.frames).2 := by
    rw [space]
    rfl
  rw [root] at nonzero ⊢
  constructor
  · intro held
    exact (alloc.drawn _ soundMiddle nonzero).2 (before.frames _ (draw _) ⟨sound, held⟩).2
  · refine (after.frames _ (draw _) ⟨?_, ?_⟩).2
    · rw [frames]
      exact alloc.drawn_sound _ soundMiddle
    · rw [frames]
      exact (alloc.taken _ soundMiddle nonzero _).mpr (.inr rfl)

/-! ## A stream that cannot be opened -/

section Streams
variable {Volume Directory : Type} {files : FileCalls Volume Directory}

theorem openStreams_none_iff (volume : Volume) (streams : List (Fil × String)) :
    (openStreams files.fOpen volume streams).1 = none ↔ ¬ AllOpen files.fOpen volume streams := by
  induction streams generalizing volume with
  | nil => simp [openStreams, AllOpen]
  | cons stream rest ih =>
    simp only [openStreams, AllOpen]
    split
    · rename_i failed
      exact iff_of_true rfl fun opens => failed opens.1
    · rename_i opened
      simp only [Option.map_eq_none_iff, ih, not_not.mp opened, true_and]

theorem openStreams_directory (volume : Volume) (streams : List (Fil × String)) :
    files.directory (openStreams files.fOpen volume streams).2 = files.directory volume := by
  induction streams generalizing volume with
  | nil => rfl
  | cons stream rest ih =>
    simp only [openStreams]
    split
    · exact files.opened ..
    · exact (ih _).trans (files.opened ..)

/-- The directory a process is created in, when no change of directory fails. -/
theorem enterDirectories_directory (follows : ∀ volume path, (files.fChdir volume path).1 = .ok) (volume : Volume)
    (pid : BitVec 64) : files.directory (enterDirectories files volume pid) =
      ["/root", "proc", pidStr pid, "fd"].foldl files.enter (files.directory volume) := by
  simp only [enterDirectories, files.moved _ _ (follows _ _), files.made, List.foldl]

end Streams

section Failure
variable {σ Volume Directory : Type} {alloc : LawfulAllocator σ} {files : FileCalls Volume Directory}
  {tasking built after : Tasking σ Volume} {new : NewProcess σ}

/-- The streams of a process are opened in its own directory. -/
def StreamsOpen (files : FileCalls Volume Directory) (new : NewProcess σ) (built : Tasking σ Volume) : Prop :=
  AllOpen files.fOpen (enterDirectories files built.volume new.pid) (streams new.proc)

theorem created_obtained (created : taskingCreateProcess alloc files current tasking = some (made, after)) :
    ∃ new built, obtainProcess alloc current tasking = some (new, built) := by
  obtain ⟨⟨new, built⟩, obtained, -⟩ := Option.bind_eq_some_iff.mp created
  exact ⟨new, built, obtained⟩

theorem created_of_open (obtained : obtainProcess alloc current tasking = some (new, built))
    (opens : StreamsOpen files new built) : ∃ descriptors after,
      taskingCreateProcess alloc files current tasking = some (some (new, descriptors), after) := by
  unfold taskingCreateProcess
  simp only [obtained, Option.bind_eq_bind, Option.bind_some]
  cases opened : openStreams files.fOpen (enterDirectories files built.volume new.pid) (streams new.proc) with
  | mk descriptors volume =>
    cases descriptors with
    | none => exact absurd opens ((openStreams_none_iff _ _).mp (congrArg Prod.fst opened))
    | some descriptors => exact ⟨descriptors, _, rfl⟩

theorem null_of_failed (obtained : obtainProcess alloc current tasking = some (new, built))
    (fails : ¬ StreamsOpen files new built) :
    taskingCreateProcess alloc files current tasking = some (none, { built with
      volume := (openStreams files.fOpen (enterDirectories files built.volume new.pid) (streams new.proc)).2 }) := by
  have none := (openStreams_none_iff _ _).mpr fails
  unfold taskingCreateProcess
  simp only [obtained, Option.bind_eq_bind, Option.bind_some]
  cases opened : openStreams files.fOpen (enterDirectories files built.volume new.pid) (streams new.proc) with
  | mk descriptors volume =>
    rw [opened] at none
    cases none
    rfl

/-- A file the checks of `elfLoad` let through. -/
structure Loadable (file : ElfFile) : Prop where
  opened : file.opened = true
  readOk : file.readOk = true
  whole : file.readBytes.toNat = file.fileSize
  accepted : Accepted file

theorem elfLoad_loadable {file : ElfFile} (loadable : Loadable file) (kernelRanges : List AddressRange) :
    elfLoad alloc files current tasking kernelRanges file =
      match taskingCreateProcess alloc files current tasking with
      | none => .panic
      | some (none, _) => .usesNull
      | some (some (new, _), tasking) =>
        loadInto alloc kernelRanges file { new.space with physical := tasking.heap.machine } := by
  obtain ⟨opened, readOk, whole, magic, supported⟩ := loadable
  simp [elfLoad, opened, readOk, whole, magic, supported]

/-- A load whose process is created goes on as the loader of the process's space. -/
theorem elfLoad_created (created : taskingCreateProcess alloc files current tasking =
      some (some (new, descriptors), after)) (space : { new.space with physical := after.heap.machine } =
      constructProcess alloc st current) (kernelRanges : List AddressRange) (file : ElfFile) :
    elfLoad alloc files current tasking kernelRanges file =
      ((ElfLoader.elfLoad alloc st current kernelRanges file).status).elim .panic .returned := by
  simp only [elfLoad, ElfLoader.elfLoad, created, space, loadInto]
  split
  · rfl
  · split
    · rfl
    · split
      · rfl
      · split
        · rfl
        · cases loaded : loadSegments alloc file
              ⟨constructProcess alloc st current, ⟨fun _ => 0, 0, 0, 0⟩⟩
              (readPhdrs file) with
          | mk copies last =>
            cases last with
            | none => rfl
            | some state =>
              simp only
              cases taskingCreateThread alloc kernelRanges state (readHeader file).eEntry <;> rfl

/-- What a failed creation does leave: the list, the directory, the root frame and
nine blocks of the heap. A load that got that far uses the `NULL` it was given. -/
structure Leaves (alloc : LawfulAllocator σ) (files : FileCalls Volume Directory) (current : Addr)
    (before after : Tasking σ Volume) (new : NewProcess σ) : Prop where
  processes : after.processes = new.proc :: before.processes
  directory : (∀ volume path, (files.fChdir volume path).1 = .ok) → files.directory after.volume =
    ["/root", "proc", pidStr new.pid, "fd"].foldl files.enter (files.directory before.volume)
  root : alloc.sound before.heap.machine.frames → new.space.pml4Physical ≠ 0 →
    ¬ alloc.held before.heap.machine.frames new.space.pml4Physical ∧
      alloc.held after.heap.machine.frames new.space.pml4Physical
  blocks : ∃ fresh, after.live = fresh ++ before.live ∧ fresh.map Prod.snd = (blocksTaken.map Object.size).reverse
  used : (∃ blocks, Accounted before.heap before.live blocks) →
    after.heap.heapUsed.toNat = before.heap.heapUsed.toNat + 2296
  load : ∀ kernelRanges file, Loadable file → elfLoad alloc files current before kernelRanges file = .usesNull

theorem null_leaves (obtained : obtainProcess alloc current tasking = some (new, built))
    (null : taskingCreateProcess alloc files current tasking = some (none, after)) :
    Leaves alloc files current tasking after new := by
  have fails : ¬ StreamsOpen files new built := by
    intro opens
    obtain ⟨descriptors, other, created⟩ := created_of_open obtained opens
    cases null.symm.trans created
  have grows := obtainProcess_grows obtained
  obtain ⟨fresh, live, sizes⟩ := grows.live
  obtain ⟨-, rfl⟩ := Prod.mk.inj (Option.some.inj (null.symm.trans (null_of_failed obtained fails)))
  refine ⟨grows.processes, fun follows => ?_, fun sound nonzero => ?_, ⟨fresh, live, sizes⟩, fun before => ?_,
    fun kernelRanges file loadable => ?_⟩
  · rw [openStreams_directory, enterDirectories_directory follows, grows.volume]
  · have held := root_held sound obtained nonzero
    exact held
  · obtain ⟨blocks, start⟩ := before
    obtain ⟨more, finish⟩ := grows.accounted ⟨blocks, start⟩
    have total : liveSize fresh = 2296 := by
      have sum := congrArg (fun sizes => (sizes.map BitVec.toNat).sum) sizes
      rw [List.map_map] at sum
      exact sum.trans (by decide)
    have split : liveSize built.live = liveSize fresh + liveSize tasking.live := by
      rw [live, liveSize, List.map_append, List.sum_append]
      rfl
    have counted := finish.used
    rw [split, total, ← start.used] at counted
    exact counted.trans (Nat.add_comm _ _)
  · rw [elfLoad_loadable loadable, null]

/-- A creation that returns `NULL` leaves no trace, and the load it was made for ends
with an error. -/
structure Undone (alloc : LawfulAllocator σ) (files : FileCalls Volume Directory) (current : Addr)
    (before after : Tasking σ Volume) (new : NewProcess σ) : Prop where
  processes : after.processes = before.processes
  directory : files.directory after.volume = files.directory before.volume
  root : new.space.pml4Physical ≠ 0 → ¬ alloc.held after.heap.machine.frames new.space.pml4Physical
  blocks : ∀ block ∈ after.live, block ∈ before.live
  load : ∀ kernelRanges file, ∃ status, status ≠ .success ∧
    elfLoad alloc files current before kernelRanges file = .returned status

end Failure

/-- A failed creation is never undone: it is only for the states in which the three
streams open that nothing is left behind. -/
theorem creation_undone_iff {σ Volume Directory : Type} (alloc : LawfulAllocator σ)
    (files : FileCalls Volume Directory) (current : Addr) (tasking : Tasking σ Volume) :
    (∀ new built after, obtainProcess alloc current tasking = some (new, built) →
      taskingCreateProcess alloc files current tasking = some (none, after) →
        Undone alloc files current tasking after new) ↔
      ∀ new built, obtainProcess alloc current tasking = some (new, built) → StreamsOpen files new built := by
  constructor
  · intro undone new built obtained
    by_contra fails
    have null := null_of_failed obtained fails
    have kept := (undone new built _ obtained null).processes
    rw [(null_leaves obtained null).processes] at kept
    exact List.cons_ne_self _ _ kept
  · intro opens new built after obtained null
    obtain ⟨descriptors, other, created⟩ := created_of_open obtained (opens new built obtained)
    cases null.symm.trans created

/-- A volume that knows only where it is and has no second stream to open. -/
def pathCalls : FileCalls (List String) (List String) where
  fOpen volume _ name _ := (if name = "1" then .denied else .ok, volume)
  fChdir volume path := (.ok, if path = "/" then [] else if path = "/root" then ["root"] else volume ++ [path])
  fMkdir volume _ := (.ok, volume)
  directory volume := volume
  enter here path := if path = "/" then [] else if path = "/root" then ["root"] else here ++ [path]
  opened _ _ _ _ := rfl
  made _ _ := rfl
  moved _ _ _ := rfl

/-- The kernel before its first process, on a small machine. -/
def freshTasking : Tasking BitmapAllocator.Allocator (List String) where
  heap := heapInitialize (fun _ => 0) heapDefaultStart heapDefaultEnd smallSpace
  live := []
  processes := []
  nextPID := 0
  volume := []

/-- What is seen of a creation: whether it returned `NULL`, the list, the directory,
the next free frame and the bytes in use. -/
def observe (created : Option (NewProcess BitmapAllocator.Allocator × List Fil) ×
    Tasking BitmapAllocator.Allocator (List String)) : Bool × List Addr × List String × Addr × Nat :=
  (created.1.isNone, created.2.processes, created.2.volume,
    (BitmapAllocator.allocatePage created.2.heap.machine.frames).1, created.2.heap.heapUsed.toNat)

/-- Without the second stream the first process stays on the list, its directory stays
the current one, frame `0x3000` and 2296 bytes of the heap are lost, and loading a
file goes on with the null pointer. -/
theorem second_stream_refused : observe (none, freshTasking) = (true, [], [], 0x3000, 0) ∧
    (taskingCreateProcess smallLaws pathCalls smallRoot.val freshTasking).map observe =
      some (true, [0xFFFF800100100011], ["root", "proc", "0", "fd"], 0x4000, 2296) ∧
    elfLoad smallLaws pathCalls smallRoot.val freshTasking [] (ElfFormat.headerFile 0x7f) = .usesNull ∧
    ¬ ∀ new built after, obtainProcess smallLaws smallRoot.val freshTasking = some (new, built) →
      taskingCreateProcess smallLaws pathCalls smallRoot.val freshTasking = some (none, after) →
        Undone smallLaws pathCalls smallRoot.val freshTasking after new := by
  have seen : (taskingCreateProcess smallLaws pathCalls smallRoot.val freshTasking).map observe =
      some (true, [0xFFFF800100100011], ["root", "proc", "0", "fd"], 0x4000, 2296) := by
    decide +kernel
  refine ⟨by decide +kernel, seen, by decide +kernel, fun undone => ?_⟩
  obtain ⟨⟨made, after⟩, null, same⟩ := Option.map_eq_some_iff.mp seen
  obtain rfl : made = none := Option.isNone_iff_eq_none.mp (congrArg Prod.fst same)
  obtain ⟨new, built, obtained⟩ := created_obtained null
  have kept := (undone new built after obtained null).processes
  rw [(null_leaves obtained null).processes] at kept
  exact List.cons_ne_self _ _ kept

end LunaOS.ProcessCreation
