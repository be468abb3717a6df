import LunaOS.UserSpace

/-! Requests for user memory when physical memory runs out. None of them looks at
what `allocatePage` returned: the range stays taken, the loop goes on, and page 0
is mapped like any other frame. -/
namespace LunaOS.Exhaustion
open ByteMemory PageArithmetic PageTables RangeAllocator UserspaceAllocator PageMapping
open BitmapAllocator (physicalAllocator)

/-- The process and the ranges of the kernel, from which its kernel stacks come. -/
structure System (σ : Type) where
  kernelRanges : List AddressRange
  proc : Process σ

/-- The requests of a process for its own memory. -/
inductive Call where
  | allocateStack (stackSize : BitVec 64) (kernelStack : Bool)
  | allocateInterruptStack (stackSize : BitVec 64)
  | allocateRange (start size : BitVec 64)
  deriving DecidableEq, Repr

section Calls
variable {σ : Type} (alloc : FrameAllocator σ)

/-- A call, with whether it reports failure: `NULL`, or `false`. -/
def perform (system : System σ) : Call → Bool × System σ
  | .allocateStack stackSize false =>
    let (stackPtr, proc) := UserspaceAllocator.allocateStack alloc system.proc stackSize
    (stackPtr == 0, { system with proc })
  | .allocateStack stackSize true | .allocateInterruptStack stackSize =>
    let (stackPtr, kernelRanges, proc) :=
      UserspaceAllocator.allocateInterruptStack alloc system.kernelRanges system.proc stackSize
    (stackPtr == 0, ⟨kernelRanges, proc⟩)
  | .allocateRange start size =>
    let (reply, proc) := UserspaceAllocator.allocateRange alloc system.proc start size
    (reply == some false, { system with proc })

/-- The pages a call maps, with their flags. -/
def mappedBy (system : System σ) : Call → PagingFlags × List Addr
  | .allocateStack stackSize false =>
    (userspaceDefaultPagingFlags, pagesIn system.proc.memoryAllocator stackSize)
  | .allocateStack stackSize true | .allocateInterruptStack stackSize =>
    (pagingDefaultFlags, pagesIn system.kernelRanges stackSize)
  | .allocateRange start size =>
    (userspaceDefaultPagingFlags,
      if (useRange system.proc.memoryAllocator (alignPageDown start) (rangePages start size)).1 then
        pagesFrom start (rangePages start size)
      else [])

/-- `allocatePage` returns 0 while the pages are mapped one after the other, for a
page or for one of the tables above it. -/
def Exhausts (pml4Physical : Addr) (flags : PagingFlags) : Physical σ → List Addr → Prop
  | _, [] => False
  | st, virt :: rest =>
    let (phys, frames) := alloc.allocatePage st.frames
    phys = 0 ∨ ¬ MapDraws alloc { st with frames } virt pml4Physical flags false (fun _ _ frame => frame ≠ 0) ∨
      Exhausts pml4Physical flags (mapPage alloc pml4Physical flags st virt) rest

def Exhausted (system : System σ) (call : Call) : Prop :=
  Exhausts alloc system.proc.pml4Physical (mappedBy system call).1 system.proc.physical
    (mappedBy system call).2

/-- Nothing is left of a call: range lists, page tables and frames are as before,
and no page has come to lie in frame 0. -/
structure Undone (before after : System σ) : Prop where
  kernelRanges : after.kernelRanges = before.kernelRanges
  memoryAllocator : after.proc.memoryAllocator = before.proc.memoryAllocator
  mem : after.proc.physical.mem = before.proc.physical.mem
  frames : after.proc.physical.frames = before.proc.physical.frames
  null : ∀ virt phys, phys.toNat < 4096 → resolve after.proc.physical.mem after.proc.pml4Physical virt = some phys →
    resolve before.proc.physical.mem before.proc.pml4Physical virt = some phys

/-- The call tells its caller when memory has run out, and takes back what it did. -/
def Reports (system : System σ) (call : Call) : Prop :=
  Exhausted alloc system call → (perform alloc system call).1 = true ∧ Undone system (perform alloc system call).2

end Calls

/-! ## The range stays taken -/

theorem take_differs {range : AddressRange} (free : range.used = false) (pages : BitVec 64) :
    pre ++ take range pages ++ post ≠ pre ++ [range] ++ post := by
  intro same
  rw [List.append_assoc, List.append_assoc] at same
  have head := (List.cons.inj (List.append_cancel_left same)).1
  have used := congrArg AddressRange.used head
  rw [free] at used
  cases used

theorem occupy_differs (range : AddressRange) (start size : BitVec 64) :
    pre ++ occupy range start size ++ post ≠ pre ++ [range] ++ post := by
  intro same
  have more := congrArg List.length same
  simp only [occupy] at more
  split at more <;> simp only [List.length_append, List.length_cons, List.length_nil] at more <;> omega

theorem allocateRange_differs {ranges : List AddressRange} {pages : BitVec 64}
    (granted : (RangeAllocator.allocateRange ranges pages).1 ≠ 0) :
    (RangeAllocator.allocateRange ranges pages).2 ≠ ranges := by
  rcases allocateRange_cases ranges pages with ⟨none, -⟩ | ⟨pre, range, post, rfl, free, -, taken⟩
  · rw [none] at granted
    exact absurd rfl granted
  · rw [taken]
    exact take_differs free pages

theorem useRange_differs {ranges : List AddressRange} {start size : BitVec 64}
    (granted : (useRange ranges start size).1 = true) : (useRange ranges start size).2 ≠ ranges := by
  rcases useRange_cases ranges start size with ⟨missed, -⟩ | ⟨pre, range, post, rfl, -, used⟩
  · rw [missed] at granted
    cases granted
  · rw [used]
    exact occupy_differs range start size

section Requests
variable {σ : Type} {alloc : FrameAllocator σ} {system : System σ}

theorem stack_taken {pml4Physical : Addr} {flags : PagingFlags} {st : Physical σ}
    (exhausts : Exhausts alloc pml4Physical flags st (pagesIn ranges stackSize)) :
    rangesLeft ranges stackSize ≠ ranges := by
  refine allocateRange_differs fun null => ?_
  have null : rangeGiven ranges stackSize = 0 := null
  simp only [pagesIn, null, ↓reduceIte, Exhausts] at exhausts

/-- Exhaustion strikes only after the range was taken, and no path gives it back. -/
theorem exhausted_taken {call : Call} (exhausted : Exhausted alloc system call) :
    (perform alloc system call).2.kernelRanges ≠ system.kernelRanges ∨
      (perform alloc system call).2.proc.memoryAllocator ≠ system.proc.memoryAllocator := by
  match call, exhausted with
  | .allocateStack stackSize false, exhausted =>
    simp only [perform, allocateStack_eq]
    exact .inr (stack_taken exhausted)
  | .allocateStack stackSize true, exhausted =>
    simp only [perform, allocateInterruptStack_eq]
    exact .inl (stack_taken exhausted)
  | .allocateInterruptStack stackSize, exhausted =>
    simp only [perform, allocateInterruptStack_eq]
    exact .inl (stack_taken exhausted)
  | .allocateRange start size, exhausted =>
    refine .inr ?_
    have granted : (useRange system.proc.memoryAllocator (alignPageDown start) (rangePages start size)).1 = true := by
      by_contra missed
      simp only [Exhausted, mappedBy, missed, ↓reduceIte, Exhausts] at exhausted
    have differs := useRange_differs granted
    simp only [perform, UserspaceAllocator.allocateRange, granted, Bool.not_true, Bool.false_eq_true, ↓reduceIte]
    split <;> exact differs

/-- Exhaustion is reported exactly when it does not happen. -/
theorem exhaustion_reported_iff (alloc : FrameAllocator σ) (system : System σ) (call : Call) :
    Reports alloc system call ↔ ¬ Exhausted alloc system call := by
  constructor
  · intro reports exhausted
    obtain ⟨_, undone⟩ := reports exhausted
    rcases exhausted_taken exhausted with kernel | user
    · exact kernel undone.kernelRanges
    · exact user undone.memoryAllocator
  · intro supplied exhausted
    exact absurd exhausted supplied

end Requests

/-- The first process of a machine that has five frames to lend: it holds one, its
root. -/
def scarceSystem : Option (System BitmapAllocator.Allocator) :=
  (BitmapAllocator.initializeAllocator BitmapAllocator.constructed (FrameExclusivity.scarceMemmap 0x7000) 0
    fun _ => 0).map fun frames =>
      ⟨[], constructProcess physicalAllocator ⟨fun _ => 0, frames⟩ 0x8000⟩

/-- Two pages and their three tables need five frames, and four are left: the call
reports success and maps the second page to frame 0. -/
theorem exhaustion_maps_null : ∃ system, scarceSystem = some system ∧ system.proc.pml4Physical = 0x2000 ∧
    (BitmapAllocator.allocatePage (perform physicalAllocator system
      (.allocateStack 0x1000 false)).2.proc.physical.frames).1 = 0 ∧
    let (stackPtr, proc) := UserspaceAllocator.allocateStack physicalAllocator system.proc 0x2000
    stackPtr = 0xff8 ∧ resolve proc.physical.mem 0x2000 0x1123 = some 0x3123 ∧
      resolve proc.physical.mem 0x2000 0x2123 = some 0x123 := by
  refine ⟨scarceSystem.get (by decide +kernel), by simp, ?_⟩
  decide +kernel

end LunaOS.Exhaustion
