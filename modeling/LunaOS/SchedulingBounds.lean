import LunaOS.ContextInvariant
import LunaOS.PriorityBoost

/-! Priorities and times over whole runs. Whatever became of the links, a job's own fields
are written by the timer, by a boost and by its own demotion alone, and a timer interrupt
that completes has demoted the running job once its time was over. -/
namespace LunaOS.SchedulingBounds
open Option
open JobScheduler SchedulerQueues SchedulerRuns ContextSwitch ContextInvariant PriorityBoost

def priorityOf (sched : Scheduler) (job : Nat) : Nat := (sched.jobs job).priority

def privilegeOf (sched : Scheduler) (job : Nat) : ThreadPrivilege :=
  (sched.threads (sched.jobs job).thread).privilege

def allotmentOf (sched : Scheduler) (priority : Nat) : BitVec 64 := (sched.queues priority).timeAllotment

/-! ## Fields and link surgery -/

section Fields
variable {sched : Scheduler}

theorem removeJob_fields (sched : Scheduler) (job other : Nat) :
    priorityOf (schedulerRemoveJob sched job) other = priorityOf sched other ∧
      timeOf (schedulerRemoveJob sched job) other = timeOf sched other := by
  unfold priorityOf timeOf
  rw [removeJob_jobs]
  exact ⟨rfl, rfl⟩

theorem addJob_fields (sched : Scheduler) (job priority other : Nat) :
    priorityOf (schedulerAddJob sched job priority) other =
        (if other = job then priority else priorityOf sched other) ∧
      timeOf (schedulerAddJob sched job priority) other = timeOf sched other := by
  unfold priorityOf timeOf
  rw [addJob_jobs]
  exact ⟨rfl, rfl⟩

theorem removeJob_allotment (sched : Scheduler) (job priority : Nat) :
    allotmentOf (schedulerRemoveJob sched job) priority = allotmentOf sched priority := by
  unfold allotmentOf
  by_cases here : priority = (sched.jobs job).priority
  · rw [here, removeJob_queue]
  · rw [removeJob_other _ _ here]

theorem addJob_allotment (sched : Scheduler) (job target priority : Nat) :
    allotmentOf (schedulerAddJob sched job target) priority = allotmentOf sched priority := by
  unfold allotmentOf
  by_cases here : priority = target
  · rw [here, addJob_queue]
  · rw [addJob_other _ _ here]

end Fields

/-! ## Boosting -/

/-- A boost clears the time of the jobs it meets and takes those it moves to priority 0. -/
structure Boosted (before after : Scheduler) : Prop where
  keeps : Keeps before after
  allotment : ∀ priority, allotmentOf after priority = allotmentOf before priority
  time : ∀ job, timeOf after job = timeOf before job ∨ timeOf after job = 0
  level : ∀ job, priorityOf after job = priorityOf before job ∨
    priorityOf after job = 0 ∧ timeOf after job = 0 ∧ before.runningJob ≠ some job

theorem Boosted.refl (sched : Scheduler) : Boosted sched sched :=
  ⟨Keeps.refl sched, fun _ => rfl, fun _ => .inl rfl, fun _ => .inl rfl⟩

theorem Boosted.trans (first : Boosted before middle) (second : Boosted middle after) : Boosted before after where
  keeps := first.keeps.trans second.keeps
  allotment priority := (second.allotment priority).trans (first.allotment priority)
  time job := by
    rcases second.time job with same | cleared
    · rw [same]
      exact first.time job
    · exact .inr cleared
  level job := by
    have idle : middle.runningJob ≠ some job → before.runningJob ≠ some job := by
      rw [first.keeps.running]
      exact id
    rcases second.level job with same | ⟨top, cleared, other⟩
    · rcases first.level job with kept | ⟨top, cleared, other⟩
      · exact .inl (same.trans kept)
      · refine .inr ⟨same.trans top, ?_, other⟩
        rcases second.time job with later | zero
        · exact later.trans cleared
        · exact zero
    · exact .inr ⟨top, cleared, idle other⟩

theorem reset_boosted (sched : Scheduler) (job : Nat) : Boosted sched (reset sched job) := by
  refine ⟨modifyJob_keeps _ _ fun _ => rfl, fun _ => rfl, fun other => ?_, fun other => .inl ?_⟩
  · unfold timeOf reset
    by_cases here : other = job
    · rw [here, modifyJob_self]
      exact .inr rfl
    · rw [modifyJob_other _ _ here]
      exact .inl rfl
  · unfold priorityOf reset
    by_cases here : other = job
    · rw [here, modifyJob_self]
    · rw [modifyJob_other _ _ here]

theorem move_boosted {sched : Scheduler} (idle : sched.runningJob ≠ some job) (fresh : timeOf sched job = 0) :
    Boosted sched (schedulerAddJob (schedulerRemoveJob sched job) job 0) := by
  have same : ∀ other, timeOf (schedulerAddJob (schedulerRemoveJob sched job) job 0) other = timeOf sched other :=
    moved_time sched job 0
  refine ⟨removeJob_keeps.trans (addJob_keeps ..), fun priority => ?_, fun other => .inl (same other), fun other => ?_⟩
  · rw [addJob_allotment, removeJob_allotment]
  · rw [(addJob_fields _ _ _ _).1, (removeJob_fields _ _ _).1]
    by_cases here : other = job
    · rw [if_pos here, same, here]
      exact .inr ⟨rfl, fresh, idle⟩
    · rw [if_neg here]
      exact .inl rfl

theorem boosted_steps (start : Scheduler) : BoostSteps (Boosted start) fun _ => True where
  first _ _ _ _ _ _ := trivial
  next _ _ _ _ _ _ := trivial
  clear sched boosted job _ := boosted.trans (reset_boosted sched job)
  move _ boosted _ _ idle fresh := boosted.trans (move_boosted idle fresh)

/-- A timer tick, with the boost if it is due. -/
theorem time_boosted (ran : schedulerTime sched = some after) : Boosted (tick sched) after ∧
      (¬ priorityBoost < (tick sched).priorityBoostTime → after = tick sched) := by
  simp only [schedulerTime] at ran
  split at ran
  · rename_i due
    obtain ⟨boosted, done, rfl⟩ := map_eq_some_iff.mp ran
    obtain ⟨keeps, allotment, time, level⟩ := priorityBoost_steps (boosted_steps _) (Boosted.refl _) done
    exact ⟨⟨⟨keeps.running, keeps.created, keeps.threads, keeps.thread⟩, allotment, time, level⟩, absurd due⟩
  · cases ran
    exact ⟨Boosted.refl _, fun _ => rfl⟩

theorem tick_fields (sched : Scheduler) (job : Nat) : priorityOf (tick sched) job = priorityOf sched job ∧
      timeOf (tick sched) job =
        if sched.runningJob = some job then timeOf sched job + timerTimeslot else timeOf sched job := by
  unfold tick priorityOf timeOf
  split
  · rename_i running current
    rw [current]
    by_cases here : job = running
    · rw [here, modifyJob_self, if_pos rfl]
      exact ⟨rfl, rfl⟩
    · rw [modifyJob_other _ _ here, if_neg fun same => here (Option.some.inj same).symm]
      exact ⟨rfl, rfl⟩
  · rename_i idle
    rw [idle]
    exact ⟨rfl, rfl⟩

theorem tick_keeps (sched : Scheduler) : Keeps sched (tick sched) ∧ (tick sched).queues = sched.queues := by
  unfold tick
  split
  · rename_i running _
    have kept : Keeps sched (modifyJob sched running fun record =>
        { record with timeInPriority := record.timeInPriority + timerTimeslot }) := modifyJob_keeps _ _ fun _ => rfl
    exact ⟨⟨kept.running, kept.created, kept.threads, kept.thread⟩, rfl⟩
  · exact ⟨⟨rfl, rfl, rfl, fun _ => rfl⟩, rfl⟩

/-! ## Scheduling -/

theorem requeue_fields (sched : Scheduler) (job other : Nat) : priorityOf (requeue sched job) other =
        (if other = job then nextPriority sched job else priorityOf sched other) ∧
      timeOf (requeue sched job) other = (if other = job then 0 else timeOf sched other) := by
  have added := addJob_fields (setStatus (schedulerRemoveJob sched job) job .ready) job (nextPriority sched job)
  have removed := removeJob_fields sched job
  rw [requeue, nextPriority_removed]
  by_cases here : other = job
  · rw [if_pos here, if_pos here, here]
    unfold priorityOf timeOf
    rw [modifyJob_self]
    have level := (added job).1
    rw [if_pos rfl] at level
    exact ⟨level, rfl⟩
  · rw [if_neg here, if_neg here]
    have level := (added other).1
    rw [if_neg here] at level
    simp only [priorityOf, timeOf] at level added removed ⊢
    rw [modifyJob_other _ _ here]
    exact ⟨level.trans (removed other).1, (added other).2.trans (removed other).2⟩

theorem requeue_allotment (sched : Scheduler) (job priority : Nat) :
    allotmentOf (requeue sched job) priority = allotmentOf sched priority :=
  (addJob_allotment (setStatus (schedulerRemoveJob sched job) job .ready) job _ priority).trans
    (removeJob_allotment sched job priority)

/-- A job's own fields stay, unless it is the running job and its time is over. -/
def Settled (before after : Scheduler) (running : Option Nat) (job : Nat) : Prop :=
  priorityOf after job = priorityOf before job ∧ timeOf after job = timeOf before job ∧
      (running = some job → statusOf before job = .dead ∨ expired before job = false) ∨
    running = some job ∧ expired before job = true ∧
      priorityOf after job = nextPriority before job ∧ timeOf after job = 0

theorem retire_settled (valid : Valid sched) (running job : Nat) :
    (∀ priority, allotmentOf (retire sched running) priority = allotmentOf sched priority) ∧
      Settled sched (retire sched running) (some running) job := by
  unfold retire
  by_cases dead : statusOf sched running = .dead
  · rw [if_pos dead]
    have removed := removeJob_fields sched running job
    refine ⟨removeJob_allotment sched running, .inl ⟨removed.1, removed.2, fun same => ?_⟩⟩
    cases same
    exact .inl dead
  · rw [if_neg dead]
    by_cases spent : expired sched running = true
    · rw [if_pos ⟨spent, valid.priority running⟩]
      obtain ⟨level, time⟩ := requeue_fields sched running job
      refine ⟨requeue_allotment sched running, ?_⟩
      by_cases here : job = running
      · rw [if_pos here] at level time
        subst here
        exact .inr ⟨rfl, spent, level, time⟩
      · rw [if_neg here] at level time
        exact .inl ⟨level, time, fun same => absurd (Option.some.inj same).symm here⟩
    · rw [if_neg fun both => spent both.1]
      refine ⟨fun _ => rfl, .inl ⟨rfl, rfl, fun same => ?_⟩⟩
      cases same
      exact .inr (by simpa using spent)

theorem schedule_settled (ran : schedule sched = some after) (valid : Valid sched) (job : Nat) :
    (∀ priority, allotmentOf after priority = allotmentOf sched priority) ∧
      Settled sched after sched.runningJob job := by
  unfold schedule at ran
  cases current : sched.runningJob with
  | none =>
    rw [current] at ran
    rcases selectJob_cases ran with ⟨rfl, _⟩ | ⟨_, _, _, rfl⟩ <;>
      exact ⟨fun _ => rfl, .inl ⟨rfl, rfl, fun running => by cases running⟩⟩
  | some running =>
    simp only [current] at ran
    split at ran
    · have facts := retire_settled valid running job
      rcases selectJob_cases ran with ⟨rfl, _⟩ | ⟨_, _, _, rfl⟩
      · exact facts
      · exact facts
    · rename_i goes
      cases ran
      refine ⟨fun _ => rfl, .inl ⟨rfl, rfl, fun same => ?_⟩⟩
      cases same
      exact .inr (by simpa using fun spent => goes (.inr (.inr spent)))

/-! ## Invariant -/

/-- The time of a job is within its allotment. -/
def Timely (sched : Scheduler) (job : Nat) : Prop := timeOf sched job ≤ 50

/-- The bounds, for the jobs created and not removed; those `exempt` are about to be
looked at by the scheduler. -/
structure Within (exempt : Option Nat) (sched : Scheduler) (removed : List Nat) : Prop where
  valid : Valid sched
  allotted : ∀ priority, allotmentOf sched priority = 50
  kernel : ∀ job, privilegeOf sched job = .kernel → priorityOf sched job = 0
  timely : ∀ job < sched.created, job ∉ removed → exempt ≠ some job → Timely sched job
  gone : ∀ job ∈ removed, job < sched.created

section Invariant
variable {sched after : Scheduler} {removed : List Nat}

/-- Nothing but the status of threads changes. -/
theorem Within.frame (within : Within exempt sched removed) (jobs : after.jobs = sched.jobs)
    (queues : after.queues = sched.queues) (created : after.created = sched.created)
    (running : after.runningJob = sched.runningJob)
    (privilege : ∀ thread, (after.threads thread).privilege = (sched.threads thread).privilege) :
    Within exempt after removed := by
  obtain ⟨valid, allotted, kernel, timely, gone⟩ := within
  refine ⟨⟨?_, ?_, ?_, ?_⟩, ?_, ?_, ?_, ?_⟩
  · simpa only [queues, created] using valid.head
  · simpa only [jobs, created] using valid.next
  · simpa only [jobs] using valid.priority
  · simpa only [running, created] using valid.running
  · simpa only [allotmentOf, queues] using allotted
  · intro job
    unfold privilegeOf priorityOf
    rw [jobs, privilege]
    exact kernel job
  · simpa only [Timely, timeOf, jobs, created] using timely
  · simpa only [created] using gone

theorem privilegeOf_congr (thread : ∀ job, (after.jobs job).thread = (sched.jobs job).thread)
    (privilege : ∀ thread, (after.threads thread).privilege = (sched.threads thread).privilege) (job : Nat) :
    privilegeOf after job = privilegeOf sched job := by
  unfold privilegeOf
  rw [thread, privilege]

/-- A tick, and the boost if it comes with it, leave only the running job's time open. -/
theorem time_within (within : Within none sched removed) (ran : schedulerTime sched = some after) :
    Within sched.runningJob after removed := by
  obtain ⟨boosted, _⟩ := time_boosted ran
  obtain ⟨ticked, queues⟩ := tick_keeps sched
  have keeps := ticked.trans boosted.keeps
  refine ⟨(time_shuffled within.valid ran).valid, fun priority => ?_, fun job => ?_, fun job made kept idle => ?_, ?_⟩
  · rw [boosted.allotment]
    unfold allotmentOf
    rw [queues]
    exact within.allotted priority
  · rw [privilegeOf_congr keeps.thread (fun _ => by rw [keeps.threads])]
    intro privileged
    rcases boosted.level job with same | ⟨top, _⟩
    · rw [same, (tick_fields sched job).1]
      exact within.kernel job privileged
    · exact top
  · rw [keeps.created] at made
    unfold Timely
    rcases boosted.time job with same | zero
    · rw [same, (tick_fields sched job).2, if_neg idle]
      exact within.timely job made kept (by simp)
    · rw [zero]
      decide
  · rw [keeps.created]
    exact within.gone

/-- A demotion by one, of a user job whose time is over and starts again. -/
def Demoted (before after : Scheduler) (job : Nat) : Prop :=
  privilegeOf before job = .user ∧ priorityOf after job = priorityOf before job + 1 ∧
    50 < timeOf before job ∧ timeOf after job = 0

theorem expired_iff (within : Within exempt sched removed) (job : Nat) :
    expired sched job = true ↔ 50 < timeOf sched job := by
  have allotment := within.allotted (priorityOf sched job)
  unfold allotmentOf priorityOf at allotment
  unfold expired
  rw [allotment, decide_eq_true_iff]
  rfl

theorem nextPriority_cases (sched : Scheduler) (job : Nat) : nextPriority sched job = priorityOf sched job ∨
      privilegeOf sched job = .user ∧ nextPriority sched job = priorityOf sched job + 1 := by
  simp only [nextPriority]
  split
  · rename_i demoted
    exact .inr ⟨demoted.1, rfl⟩
  · exact .inl rfl

/-- A call of the scheduler that returns leaves no job over its time. -/
theorem schedule_within (within : Within sched.runningJob sched removed) (ran : schedule sched = some after) :
    Within none after ((deadJob sched).toList ++ removed) ∧ ∀ job, priorityOf after job = priorityOf sched job ∧
          (timeOf after job = timeOf sched job ∨ timeOf after job = 0) ∨
        Demoted sched after job ∧ sched.runningJob = some job := by
  have settled := fun job => schedule_settled ran within.valid job
  have facts := schedule_scheduled within.valid ran
  have levels : ∀ job, priorityOf after job = priorityOf sched job ∧
      (timeOf after job = timeOf sched job ∨ timeOf after job = 0) ∨
        Demoted sched after job ∧ sched.runningJob = some job := by
    intro job
    rcases (settled job).2 with ⟨same, time, _⟩ | ⟨running, spent, level, cleared⟩
    · exact .inl ⟨same, .inl time⟩
    · rcases nextPriority_cases sched job with same | ⟨user, lower⟩
      · exact .inl ⟨level.trans same, .inr cleared⟩
      · exact .inr ⟨⟨user, level.trans lower, (expired_iff within job).mp spent, cleared⟩, running⟩
  refine ⟨⟨facts.valid, fun priority => ((settled 0).1 priority).trans (within.allotted priority), fun job => ?_,
    fun job made kept _ => ?_, fun job member => ?_⟩, levels⟩
  · rw [privilegeOf_congr facts.thread facts.privilege]
    intro privileged
    rcases levels job with ⟨same, _⟩ | ⟨demoted, _⟩
    · rw [same]
      exact within.kernel job privileged
    · cases privileged.symm.trans demoted.1
  · rw [facts.created] at made
    rw [List.mem_append, not_or] at kept
    unfold Timely
    rcases (settled job).2 with ⟨_, same, looked⟩ | ⟨_, _, _, cleared⟩
    · rw [same]
      by_cases running : sched.runningJob = some job
      · rcases looked running with dead | fresh
        · exact absurd (by simp [deadJob, running, dead]) kept.1
        · rw [← Bool.not_eq_true, expired_iff within, BitVec.not_lt] at fresh
          exact fresh
      · exact within.timely job made kept.2 running
    · rw [cleared]
      decide
  · rw [facts.created]
    rcases List.mem_append.mp member with new | old
    · have found := mem_toList.mp new
      unfold deadJob at found
      exact within.valid.running job (filter_eq_some_iff.mp found).1
    · exact within.gone job old

end Invariant

/-! ## Whole runs -/

/-- The kernel, and the jobs the scheduler removed because their thread was dead. -/
structure History where
  kernel : Kernel
  removed : List Nat

/-- New jobs, changes of a thread's status such as its death, switches and timer
interrupts. -/
inductive Action where
  | newJob (thread : Nat)
  | status (thread : Nat) (status : ThreadStatus)
  | switch
  | timer
  deriving DecidableEq, Repr

def act (history : History) : Action → Option History
  | .newJob thread => some { history with
      kernel := { history.kernel with sched := schedulerNewJob history.kernel.sched thread } }
  | .status thread status => some { history with
      kernel := { history.kernel with sched := withStatus history.kernel.sched thread status } }
  | .switch => (taskingSwitch history.kernel).map fun after =>
      ⟨after, (deadJob history.kernel.sched).toList ++ history.removed⟩
  | .timer => (requestTimer history.kernel).map fun after =>
      ⟨after, (deadJob history.kernel.sched).toList ++ history.removed⟩

inductive Run (start : History) : History → Prop where
  | refl : Run start start
  | step (run : Run start history) (action : Action) (done : act history action = some next) : Run start next

/-- A priority changes by a demotion at the end of the job's time, or by a boost, and the
time then starts again. -/
def Allowed (before after : Scheduler) (job : Nat) : Prop :=
  priorityOf after job = priorityOf before job ∨ timeOf after job = 0 ∧
      (privilegeOf before job = .user ∧ priorityOf after job = priorityOf before job + 1 ∧
          50 < timeOf (tick before) job ∨
        priorityOf after job = 0 ∧ priorityBoost < (tick before).priorityBoostTime)

section Runs
variable {kernel next : Kernel} {removed : List Nat}

theorem switch_schedules (ran : taskingSwitch kernel = some next) :
    ∃ after, schedule kernel.sched = some after ∧ next.sched.jobs = after.jobs ∧
      next.sched.queues = after.queues ∧ next.sched.created = after.created ∧
      next.sched.runningJob = after.runningJob ∧
      ∀ thread, (next.sched.threads thread).privilege = (after.threads thread).privilege := by
  obtain ⟨after, done, ⟨_, rfl⟩ | ⟨job, _, rfl⟩⟩ := switch_cases ran
  · exact ⟨after, done, rfl, rfl, rfl, rfl, fun _ => rfl⟩
  · obtain ⟨jobs, created, queues, same, threads⟩ := handOver_threads after kernel.currentThread _
    exact ⟨after, done, jobs, queues, created, same, fun thread => (threads thread).1⟩

theorem switch_within (within : Within kernel.sched.runningJob kernel.sched removed)
    (ran : taskingSwitch kernel = some next) : Within none next.sched ((deadJob kernel.sched).toList ++ removed) ∧
      ∀ job, priorityOf next.sched job = priorityOf kernel.sched job ∧
          (timeOf next.sched job = timeOf kernel.sched job ∨ timeOf next.sched job = 0) ∨
        Demoted kernel.sched next.sched job ∧ kernel.sched.runningJob = some job := by
  obtain ⟨after, done, jobs, queues, created, running, privilege⟩ := switch_schedules ran
  obtain ⟨bounds, levels⟩ := schedule_within within done
  refine ⟨bounds.frame jobs queues created running privilege, ?_⟩
  simpa only [priorityOf, timeOf, Demoted, privilegeOf, jobs] using levels

theorem timer_within (within : Within none kernel.sched removed) (ran : requestTimer kernel = some next) :
    Within none next.sched ((deadJob kernel.sched).toList ++ removed) ∧
      ∀ job, Allowed kernel.sched next.sched job := by
  rw [requestTimer] at ran
  obtain ⟨timed, counted, ran⟩ := bind_eq_some_iff.mp ran
  obtain ⟨boosted, idle⟩ := time_boosted counted
  have keeps := (tick_keeps kernel.sched).1.trans boosted.keeps
  have dead : deadJob timed = deadJob kernel.sched := by
    unfold deadJob
    rw [keeps.running]
    congr 1
    funext job
    rw [keeps.status]
  have loose := time_within within counted
  rw [← keeps.running] at loose
  obtain ⟨bounds, levels⟩ := switch_within loose ran
  refine ⟨dead ▸ bounds, fun job => ?_⟩
  have level := (tick_fields kernel.sched job).1
  rcases levels job with ⟨same, time⟩ | ⟨⟨user, lower, spent, cleared⟩, running⟩
  · rcases boosted.level job with kept | ⟨top, cleared, _⟩
    · exact .inl (same.trans (kept.trans level))
    · by_cases due : priorityBoost < (tick kernel.sched).priorityBoostTime
      · refine .inr ⟨?_, .inr ⟨same.trans top, due⟩⟩
        rcases time with later | zero
        · exact later.trans cleared
        · exact zero
      · rw [idle due] at same
        exact .inl (same.trans level)
  · rcases boosted.level job with kept | ⟨_, _, other⟩
    · refine .inr ⟨cleared, .inl ⟨?_, ?_, ?_⟩⟩
      · rw [← privilegeOf_congr keeps.thread (fun _ => by rw [keeps.threads])]
        exact user
      · rw [lower]
        exact congrArg (· + 1) (kept.trans level)
      · rcases boosted.time job with same | zero
        · rw [← same]
          exact spent
        · rw [zero] at spent
          exact absurd spent (by decide)
    · exact absurd (boosted.keeps.running.symm.trans running) other

theorem newJob_fields (sched : Scheduler) (thread job : Nat) : priorityOf (schedulerNewJob sched thread) job =
        (if job = sched.created then 0 else priorityOf sched job) ∧
      timeOf (schedulerNewJob sched thread) job = (if job = sched.created then 0 else timeOf sched job) := by
  obtain ⟨level, time⟩ := addJob_fields { sched with
    jobs := Function.update sched.jobs sched.created ⟨thread, 0, 0, none, none⟩
    created := sched.created + 1 } sched.created 0 job
  refine ⟨level.trans ?_, time.trans ?_⟩
  · by_cases here : job = sched.created
    · rw [if_pos here, if_pos here]
    · simp [here, priorityOf]
  · by_cases here : job = sched.created
    · simp [here, timeOf]
    · simp [here, timeOf]

theorem newJob_within {sched : Scheduler} (within : Within none sched removed) (thread : Nat) :
    Within none (schedulerNewJob sched thread) removed := by
  obtain ⟨threads, _, created, jobs⟩ := newJob_threads sched thread
  have fields := newJob_fields sched thread
  refine ⟨newJob_valid within.valid thread, fun priority => ?_, fun job privileged => ?_, fun job made kept rest => ?_,
    fun job member => ?_⟩
  · exact (addJob_allotment ..).trans (within.allotted priority)
  · rw [(fields job).1]
    split
    · rfl
    · rename_i old
      refine within.kernel job ?_
      unfold privilegeOf at privileged ⊢
      rw [jobs, if_neg old, threads] at privileged
      exact privileged
  · unfold Timely
    rw [(fields job).2]
    split
    · decide
    · rename_i old
      rw [created] at made
      exact within.timely job (by omega) kept rest
  · rw [created]
    exact Nat.lt_succ_of_lt (within.gone job member)

theorem act_within {history after : History} (within : Within none history.kernel.sched history.removed)
    (done : act history action = some after) : Within none after.kernel.sched after.removed ∧
      ∀ job < history.kernel.sched.created, job ∉ after.removed →
        (action = .timer ∧ Allowed history.kernel.sched after.kernel.sched job) ∨
          priorityOf after.kernel.sched job = priorityOf history.kernel.sched job := by
  cases action with
  | newJob thread =>
    cases done
    refine ⟨newJob_within within thread, fun job made _ => .inr ?_⟩
    rw [(newJob_fields _ _ _).1, if_neg (Nat.ne_of_lt made)]
  | status thread status =>
    cases done
    exact ⟨within.frame rfl rfl rfl rfl fun other => (withStatus_threads _ _ _ other).1, fun _ _ _ => .inr rfl⟩
  | switch =>
    obtain ⟨next, ran, rfl⟩ := map_eq_some_iff.mp done
    obtain ⟨valid, allotted, top, timely, gone⟩ := within
    have loose : Within history.kernel.sched.runningJob history.kernel.sched history.removed :=
      ⟨valid, allotted, top, fun job made kept _ => timely job made kept (by simp), gone⟩
    obtain ⟨bounds, levels⟩ := switch_within loose ran
    refine ⟨bounds, fun job made kept => .inr ?_⟩
    rcases levels job with ⟨same, _⟩ | ⟨⟨_, _, spent, _⟩, _⟩
    · exact same
    · rw [List.mem_append, not_or] at kept
      exact absurd (timely job made kept.2 (by simp)) (BitVec.not_le.mpr spent)
  | timer =>
    obtain ⟨next, ran, rfl⟩ := map_eq_some_iff.mp done
    obtain ⟨bounds, levels⟩ := timer_within within ran
    exact ⟨bounds, fun job _ _ => .inl ⟨rfl, levels job⟩⟩

theorem boot_within (threads : Nat → Thread) : Within none (schedulerInit threads) [] := by
  refine ⟨⟨?_, ?_, ?_, ?_⟩, fun _ => rfl, fun _ _ => rfl, ?_, by simp⟩
  · intro priority job link
    cases link
  · intro other job link
    cases link
  · intro job
    exact show 0 < schedulerQueues by decide
  · intro job running
    cases running
  · intro job made
    cases made

theorem Run.within {start history : History} (run : Run start history)
    (first : Within none start.kernel.sched start.removed) : Within none history.kernel.sched history.removed := by
  induction run with
  | refl => exact first
  | step run action done ih => exact (act_within ih done).1

end Runs

/-- In every state of a run priorities name a queue, no job that is still there has used
more than its queue allots, and kernel jobs are in the first queue; every next step changes
priorities in the two allowed ways alone. -/
theorem scheduling_bounded (threads : Nat → Thread) (infos : Nat → ThreadInfo) (tss : Tss)
    (fsBase : BitVec 64 → BitVec 64) {history : History}
    (run : Run ⟨ContextSwitch.boot threads infos tss fsBase, []⟩ history) : (∀ job < history.kernel.sched.created,
      priorityOf history.kernel.sched job < schedulerQueues ∧
        (privilegeOf history.kernel.sched job = .kernel → priorityOf history.kernel.sched job = 0) ∧
        (job ∉ history.removed → timeOf history.kernel.sched job ≤
          allotmentOf history.kernel.sched (priorityOf history.kernel.sched job)) ∧
        allotmentOf history.kernel.sched (priorityOf history.kernel.sched job) = 50) ∧
      (∀ job ∈ history.removed, job < history.kernel.sched.created) ∧
      ∀ action after, act history action = some after → ∀ job < history.kernel.sched.created, job ∉ after.removed →
          (action = .timer ∧ Allowed history.kernel.sched after.kernel.sched job) ∨
            priorityOf after.kernel.sched job = priorityOf history.kernel.sched job := by
  have within := run.within (boot_within threads)
  refine ⟨fun job made => ⟨within.valid.priority job, within.kernel job, fun kept => ?_, within.allotted _⟩,
    within.gone, fun action after done => (act_within within done).2⟩
  rw [within.allotted]
  exact within.timely job made kept (by simp)

theorem Run.all {start history : History} (run : Run start history) {actions : List Action}
    (done : actions.foldlM act history = some next) : Run start next := by
  induction actions generalizing history with
  | nil =>
    cases done
    exact run
  | cons action rest ih =>
    rw [List.foldlM_cons] at done
    obtain ⟨middle, first, later⟩ := bind_eq_some_iff.mp done
    exact ih (run.step action first) later

/-- A user job runs past its allotment and is demoted. -/
theorem scheduling_bounded_demoted : ∃ history,
    Run ⟨ContextSwitch.boot (fun _ => ⟨.ready, .user⟩) (fun _ => ⟨0, 0, 0⟩) ⟨0, 0⟩ fun _ => 0, []⟩ history ∧
      priorityOf history.kernel.sched 0 = 1 ∧ timeOf history.kernel.sched 0 ≤ allotmentOf history.kernel.sched 1 := by
  have ran : ((Action.newJob 0 :: List.replicate 27 .timer).foldlM act
      ⟨ContextSwitch.boot (fun _ => ⟨.ready, .user⟩) (fun _ => ⟨0, 0, 0⟩) ⟨0, 0⟩ fun _ => 0, []⟩).map
        (fun history => (priorityOf history.kernel.sched 0, history.kernel.sched.created, history.removed)) =
      some (1, 1, []) := by decide +kernel
  obtain ⟨history, done, observed⟩ := Option.map_eq_some_iff.mp ran
  simp only [Prod.mk.injEq] at observed
  obtain ⟨level, made, none⟩ := observed
  have run := Run.refl.all done
  have bounds := (scheduling_bounded _ _ _ _ run).1 0 (by rw [made]; decide)
  rw [level, none] at bounds
  exact ⟨history, run, level, bounds.2.2.1 (by simp)⟩

end LunaOS.SchedulingBounds
