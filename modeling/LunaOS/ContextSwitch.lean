import LunaOS.ByteMemory
import LunaOS.JobScheduler

/-! Interrupts and the switch between threads (`interruptHandler` of
`interrupts/interrupts.cpp`, `taskingSwitch` and `taskingCreateThread` of
`tasking/tasking.cpp`, `gdtSetActiveStack` of `gdt/gdt.cpp`). Threads are pointers
into a store that only grows; a call that reads through a null thread, or whose
scheduler does not return, has no result. -/
namespace LunaOS.ContextSwitch
open ByteMemory JobScheduler

/-- The fields of `k_thread` the scheduler does not read. -/
structure ThreadInfo where
  context : Addr
  interruptStackEnd : Addr
  userThread : Addr

/-- The stack of ring 0 in the task state segment. -/
structure Tss where
  rsp0Low : BitVec 32
  rsp0High : BitVec 32

def Tss.rsp0 (tss : Tss) : Addr := tss.rsp0High ++ tss.rsp0Low

/-- The scheduler, the threads created so far, the current one, and the field
`fs_base` of the state at an address. -/
structure Kernel where
  sched : Scheduler
  infos : Nat → ThreadInfo
  createdThreads : Nat
  currentThread : Option Nat
  tss : Tss
  fsBase : Addr → BitVec 64

/-- The kernel with an empty scheduler and no current thread. -/
def boot (threads : Nat → Thread) (infos : Nat → ThreadInfo) (tss : Tss) (fsBase : Addr → BitVec 64) : Kernel :=
  ⟨schedulerInit threads, infos, 0, none, tss, fsBase⟩

/-- `gdtSetActiveStack` -/
def gdtSetActiveStack (stackPtr : Addr) : Tss where
  rsp0Low := (stackPtr &&& 0xFFFFFFFF).setWidth 32
  rsp0High := ((stackPtr >>> 32) &&& 0xFFFFFFFF).setWidth 32

def withStatus (sched : Scheduler) (thread : Nat) (status : ThreadStatus) : Scheduler :=
  { sched with
    threads := Function.update sched.threads thread { sched.threads thread with status := status } }

/-- `taskingCreateThread`, from the memory of the thread on. -/
def taskingCreateThread (kernel : Kernel) (privilege : ThreadPrivilege) (info : ThreadInfo) : Kernel :=
  let thread := kernel.createdThreads
  let sched := { kernel.sched with
    threads := Function.update kernel.sched.threads thread ⟨.ready, privilege⟩ }
  { kernel with
    sched := schedulerNewJob sched thread
    infos := Function.update kernel.infos thread info
    createdThreads := kernel.createdThreads + 1 }

/-- The new thread runs, and the previous one is ready if it was running. -/
def handOver (sched : Scheduler) (previousThread : Option Nat) (threadToRun : Nat) : Scheduler :=
  let sched := withStatus sched threadToRun .running
  match previousThread with
  | some previous =>
    if previous ≠ threadToRun ∧ (sched.threads previous).status = .running then
      withStatus sched previous .ready
    else sched
  | none => sched

/-- `taskingSwitch` -/
def taskingSwitch (kernel : Kernel) : Option Kernel := do
  let previousThread := kernel.currentThread
  let (threadToRun, sched) ← schedulerSchedule kernel.sched
  match threadToRun with
  | none => some { kernel with sched }
  | some thread =>
    let tss := if (sched.threads thread).privilege ≠ .kernel then
        gdtSetActiveStack (kernel.infos thread).interruptStackEnd
      else kernel.tss
    some { kernel with sched := handOver sched previousThread thread, tss, currentThread := some thread }

/-- `requestTimer` -/
def requestTimer (kernel : Kernel) : Option Kernel := do
  let sched ← schedulerTime kernel.sched
  taskingSwitch { kernel with sched }

/-- The system calls that touch threads: the end of the caller, its thread pointer,
and all others. -/
inductive SystemCall where
  | exit
  | tcbSet (pointer : Addr)
  | other
  deriving DecidableEq, Repr

inductive Interrupt where
  | timer
  | keyboard
  | systemCall (call : SystemCall)
  deriving DecidableEq, Repr

/-- `Syscall::handle` -/
def handle (kernel : Kernel) (thread : Nat) : SystemCall → Option Kernel
  | .exit => taskingSwitch { kernel with sched := withStatus kernel.sched thread .dead }
  | .tcbSet pointer => some { kernel with
      infos := Function.update kernel.infos thread { kernel.infos thread with userThread := pointer } }
  | .other => some kernel

/-- What happens between the two looks at the current thread. A system call
without a current thread is ignored. -/
def serve (kernel : Kernel) (rsp : Addr) (interrupt : Interrupt) : Option Kernel :=
  match kernel.currentThread with
  | some thread =>
    let kernel := { kernel with
      infos := Function.update kernel.infos thread { kernel.infos thread with context := rsp } }
    match interrupt with
    | .timer => requestTimer kernel
    | .keyboard => some kernel
    | .systemCall call => handle kernel thread call
  | none => do
    let kernel ← taskingSwitch kernel
    match interrupt with
    | .timer => requestTimer kernel
    | _ => some kernel

/-- `interruptHandler`, with the stack pointer it returns. -/
def interruptHandler (kernel : Kernel) (rsp : Addr) (interrupt : Interrupt) : Option (Addr × Kernel) := do
  let kernel ← serve kernel rsp interrupt
  let thread ← kernel.currentThread
  let info := kernel.infos thread
  if (kernel.sched.threads thread).privilege = .user then
    some (info.context, { kernel with fsBase := Function.update kernel.fsBase info.context info.userThread })
  else some (info.context, kernel)

end LunaOS.ContextSwitch
