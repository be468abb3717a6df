import LunaOS.BoundedLoop
import Mathlib.Logic.Function.Basic

/-! The multi-level feedback queue scheduler (`tasking/scheduler.cpp`), from
`schedulerInit` on. Jobs are pointers into a store that only grows: `new` gives
a pointer not used before and nothing is ever deleted. A call that reads through
a null job or never leaves a loop has no result. -/
namespace LunaOS.JobScheduler
open BoundedLoop

/-- `THREAD_STATUS` -/
inductive ThreadStatus where
  | running | ready | waiting | dead
  deriving DecidableEq, Repr

/-- `THREAD_PRIVILEGE` -/
inductive ThreadPrivilege where
  | kernel | user
  deriving DecidableEq, Repr

/-- The fields of `k_thread` the scheduler reads. -/
structure Thread where
  status : ThreadStatus
  privilege : ThreadPrivilege
  deriving DecidableEq, Repr

/-- `k_scheduler_job` -/
structure Job where
  thread : Nat
  priority : Nat
  timeInPriority : BitVec 64
  prev : Option Nat
  next : Option Nat
  deriving DecidableEq, Repr

/-- `k_jobs_queue` -/
structure JobsQueue where
  head : Option Nat
  tail : Option Nat
  timeAllotment : BitVec 64
  isEmpty : Bool
  deriving DecidableEq, Repr

/-- The scheduler's globals, with the jobs created so far and the threads they
point to. -/
structure Scheduler where
  jobs : Nat → Job
  created : Nat
  threads : Nat → Thread
  queues : Nat → JobsQueue
  runningJob : Option Nat
  priorityBoostTime : BitVec 64

/-- `K_CONST_SCHEDULER_QUEUES` -/
def schedulerQueues : Nat := 10
/-- `K_CONST_PRIORITY_BOOST` -/
def priorityBoost : BitVec 64 := 1000
/-- `APIC_TIMER_TIMESLOT_MS` -/
def timerTimeslot : BitVec 64 := 2

def modifyJob (sched : Scheduler) (job : Nat) (change : Job → Job) : Scheduler :=
  { sched with jobs := Function.update sched.jobs job (change (sched.jobs job)) }

def modifyQueue (sched : Scheduler) (priority : Nat) (change : JobsQueue → JobsQueue) : Scheduler :=
  { sched with
    queues := Function.update sched.queues priority (change (sched.queues priority)) }

/-- `schedulerInit`, over any threads. -/
def schedulerInit (threads : Nat → Thread) : Scheduler where
  jobs _ := ⟨0, 0, 0, none, none⟩
  created := 0
  threads := threads
  queues _ := ⟨none, none, 50, true⟩
  runningJob := none
  priorityBoostTime := 0

def statusOf (sched : Scheduler) (job : Nat) : ThreadStatus :=
  (sched.threads (sched.jobs job).thread).status

def setStatus (sched : Scheduler) (job : Nat) (status : ThreadStatus) : Scheduler :=
  let thread := (sched.jobs job).thread
  { sched with
    threads := Function.update sched.threads thread
      { sched.threads thread with status := status } }

/-- The first half of `schedulerRemoveJob`: what points forward at the job. -/
def unlinkForward (sched : Scheduler) (job : Nat) : Scheduler :=
  let removed := sched.jobs job
  match removed.prev with
  | some prev => modifyJob sched prev fun other => { other with next := removed.next }
  | none => modifyQueue sched removed.priority fun queue => { queue with head := removed.next }

/-- The second half: what points back at it. -/
def unlinkBackward (sched : Scheduler) (job : Nat) : Scheduler :=
  let removed := sched.jobs job
  match removed.next with
  | some next => modifyJob sched next fun other => { other with prev := removed.prev }
  | none => modifyQueue sched removed.priority fun queue => { queue with tail := removed.prev }

/-- `schedulerRemoveJob` -/
def schedulerRemoveJob (sched : Scheduler) (job : Nat) : Scheduler :=
  let priority := (sched.jobs job).priority
  let sched := unlinkBackward (unlinkForward sched job) job
  if (sched.queues priority).head = none then
    modifyQueue sched priority fun queue => { queue with isEmpty := true }
  else sched

/-- `schedulerAddJob`. The new back link is `jobsQueues->tail`, the tail of queue
0 whatever the priority. -/
def schedulerAddJob (sched : Scheduler) (job priority : Nat) : Scheduler :=
  let sched := modifyJob sched job fun added =>
    { added with priority := priority, prev := (sched.queues 0).tail, next := none }
  let sched := match (sched.queues priority).tail with
    | some tail => modifyJob sched tail fun last => { last with next := some job }
    | none => sched
  modifyQueue sched priority fun queue =>
    { queue with
      head := if queue.head = none then some job else queue.head
      tail := some job
      isEmpty := false }

/-- `schedulerNewJob` -/
def schedulerNewJob (sched : Scheduler) (thread : Nat) : Scheduler :=
  let job := sched.created
  let sched := { sched with
    jobs := Function.update sched.jobs job ⟨thread, 0, 0, none, none⟩
    created := sched.created + 1 }
  schedulerAddJob sched job 0

/-- One turn of the boost loop over a queue; `next` is read after the job may
have been moved. -/
def boostTurn (priority : Nat) (state : Scheduler × Option Nat) : Turn (Scheduler × Option Nat) Scheduler :=
  match state with
  | (sched, none) => .leave sched
  | (sched, some job) =>
    let sched := modifyJob sched job fun boosted => { boosted with timeInPriority := 0 }
    let sched :=
      if priority ≠ 0 ∧ sched.runningJob ≠ some job then
        schedulerAddJob (schedulerRemoveJob sched job) job 0
      else sched
    .again (sched, (sched.jobs job).next)

/-- The loop only walks on along links it does not write, so a walk with more
turns than there are jobs has met one twice and never ends. -/
def boostQueue (sched : Scheduler) (priority : Nat) : Option Scheduler :=
  iterate (boostTurn priority) (sched.created + 1) (sched, (sched.queues priority).head)

/-- `schedulerPriorityBoost`; the last queue is left out. -/
def schedulerPriorityBoost (sched : Scheduler) : Option Scheduler :=
  (List.range (schedulerQueues - 1)).foldlM boostQueue sched

/-- The two counters `schedulerTime` advances. -/
def tick (sched : Scheduler) : Scheduler :=
  let sched := match sched.runningJob with
    | some job => modifyJob sched job fun running =>
        { running with timeInPriority := running.timeInPriority + timerTimeslot }
    | none => sched
  { sched with priorityBoostTime := sched.priorityBoostTime + timerTimeslot }

/-- `schedulerTime` -/
def schedulerTime (sched : Scheduler) : Option Scheduler :=
  let sched := tick sched
  if priorityBoost < sched.priorityBoostTime then
    (schedulerPriorityBoost sched).map fun boosted => { boosted with priorityBoostTime := 0 }
  else some sched

/-- One turn of the loop that waits for the head of a queue to be ready. It moves
the running job, not the job it waits for. -/
def readyTurn (job : Option Nat) (priority : Nat) (sched : Scheduler) : Turn Scheduler (Option Scheduler) :=
  match job with
  | none => .leave (some sched)
  | some job =>
    if statusOf sched job = .ready then .leave (some sched)
    else match sched.runningJob with
      | none => .leave none
      | some running =>
        let sched := schedulerRemoveJob sched running
        .again (if statusOf sched job ≠ .dead then schedulerAddJob sched running priority
          else sched)

/-- The selection of the next job among the given queues. -/
def selectJob (sched : Scheduler) : List Nat → Option Scheduler
  | [] => some sched
  | priority :: rest =>
    if (sched.queues priority).isEmpty then selectJob sched rest
    else
      let job := (sched.queues priority).head
      (iterate (readyTurn job priority) maxTurns sched).join.map fun sched =>
        { sched with runningJob := job }

/-- A job has used up the time its queue allots. -/
def expired (sched : Scheduler) (job : Nat) : Bool :=
  (sched.queues (sched.jobs job).priority).timeAllotment < (sched.jobs job).timeInPriority

/-- The queue an expired job goes to: kernel jobs are not demoted. -/
def nextPriority (sched : Scheduler) (job : Nat) : Nat :=
  let priority := (sched.jobs job).priority
  if (sched.threads (sched.jobs job).thread).privilege = .user ∧ priority < schedulerQueues - 1 then priority + 1
  else priority

/-- What happens to an expired job. -/
def requeue (sched : Scheduler) (job : Nat) : Scheduler :=
  let sched := setStatus (schedulerRemoveJob sched job) job .ready
  let sched := schedulerAddJob sched job (nextPriority sched job)
  modifyJob sched job fun moved => { moved with timeInPriority := 0 }

/-- What `schedulerSchedule` does to the running job before it selects. -/
def retire (sched : Scheduler) (job : Nat) : Scheduler :=
  if statusOf sched job = .dead then
    { schedulerRemoveJob sched job with runningJob := none }
  else if expired sched job ∧ (sched.jobs job).priority < schedulerQueues then
    requeue sched job
  else sched

/-- `schedulerSchedule`, up to the thread it returns. -/
def schedule (sched : Scheduler) : Option Scheduler :=
  match sched.runningJob with
  | none => selectJob sched (List.range schedulerQueues)
  | some job =>
    if statusOf sched job = .waiting ∨ statusOf sched job = .dead ∨ expired sched job then
      selectJob (retire sched job) (List.range schedulerQueues)
    else some sched

/-- `schedulerSchedule` -/
def schedulerSchedule (sched : Scheduler) : Option (Option Nat × Scheduler) :=
  (schedule sched).map fun sched =>
    (sched.runningJob.map fun job => (sched.jobs job).thread, sched)

end LunaOS.JobScheduler
