import LunaOS.ContextSwitch
import LunaOS.SchedulerRuns

/-! What holds after every interrupt. Whatever became of the queues, the scheduler
only ever names jobs that were created, only the current thread can be running,
and a context is stored for the current thread alone. That there is a running job
is another matter: when the current thread ends and every queue is marked empty,
the scheduler selects nothing and the dead thread goes on. -/
namespace LunaOS.ContextInvariant
open Function ByteMemory JobScheduler SchedulerQueues SchedulerRuns ContextSwitch BitVec Option

/-! ## The scheduler -/

/-- Every job that is named was created, and has a queue. -/
structure Valid (sched : Scheduler) : Prop where
  head : ∀ priority job, (sched.queues priority).head = some job → job < sched.created
  next : ∀ other job, (sched.jobs other).next = some job → job < sched.created
  priority : ∀ job, (sched.jobs job).priority < schedulerQueues
  running : ∀ job, sched.runningJob = some job → job < sched.created

section Scheduler
variable {sched after : Scheduler}

theorem modifyJob_valid {change : Job → Job} (valid : Valid sched)
    (next : ∀ other, (change (sched.jobs job)).next = some other → other < sched.created)
    (priority : (change (sched.jobs job)).priority < schedulerQueues) : Valid (modifyJob sched job change) := by
  refine ⟨valid.head, fun other found link => ?_, fun other => ?_, valid.running⟩
  · by_cases here : other = job
    · rw [here, modifyJob_self] at link
      exact next found link
    · rw [modifyJob_other _ _ here] at link
      exact valid.next other found link
  · by_cases here : other = job
    · rw [here, modifyJob_self]
      exact priority
    · rw [modifyJob_other _ _ here]
      exact valid.priority other

theorem modifyQueue_valid {change : JobsQueue → JobsQueue} (valid : Valid sched)
    (head : ∀ job, (change (sched.queues priority)).head = some job → job < sched.created) :
    Valid (modifyQueue sched priority change) := by
  refine ⟨fun other job link => ?_, valid.next, valid.priority, valid.running⟩
  by_cases here : other = priority
  · rw [here, modifyQueue_self] at link
    exact head job link
  · rw [modifyQueue_other _ _ here] at link
    exact valid.head other job link

theorem removeJob_valid (valid : Valid sched) (job : Nat) : Valid (schedulerRemoveJob sched job) := by
  have forward : Valid (unlinkForward sched job) := by
    simp only [unlinkForward]
    split
    · exact modifyJob_valid valid (valid.next job) (valid.priority _)
    · exact modifyQueue_valid valid (valid.next job)
  have backward : Valid (unlinkBackward (unlinkForward sched job) job) := by
    rw [unlinkBackward]
    split
    · exact modifyJob_valid forward (forward.next _) (forward.priority _)
    · exact modifyQueue_valid forward (forward.head _)
  simp only [schedulerRemoveJob]
  split
  · exact modifyQueue_valid backward (backward.head _)
  · exact backward

theorem addJob_valid (valid : Valid sched) (created : job < sched.created) (queue : priority < schedulerQueues) :
    Valid (schedulerAddJob sched job priority) := by
  have placed : Valid (modifyJob sched job fun added =>
      { added with priority := priority, prev := (sched.queues 0).tail, next := none }) :=
    modifyJob_valid valid (fun _ link => by cases link) queue
  have head : ∀ other, (if (sched.queues priority).head = none then some job
      else (sched.queues priority).head) = some other → other < sched.created := by
    intro other link
    split at link
    · cases link
      exact created
    · exact valid.head priority other link
  simp only [schedulerAddJob]
  split
  · refine modifyQueue_valid (modifyJob_valid placed (fun other link => ?_) (placed.priority _)) head
    cases link
    exact created
  · exact modifyQueue_valid placed head

/-- Valid, with no change to threads, to what jobs run, or to the running job. -/
structure Shuffled (before after : Scheduler) : Prop where
  valid : Valid after
  keeps : Keeps before after

theorem Shuffled.trans (first : Shuffled before middle) (second : Shuffled middle after) : Shuffled before after :=
  ⟨second.valid, first.keeps.trans second.keeps⟩

theorem shuffled_steps (start : Scheduler) : BoostSteps (Shuffled start) (· < start.created) where
  first sched shuffled priority _ job first := shuffled.keeps.created ▸ shuffled.valid.head priority job first
  next sched shuffled job _ other link := shuffled.keeps.created ▸ shuffled.valid.next job other link
  clear sched shuffled job _ := shuffled.trans
    ⟨modifyJob_valid shuffled.valid (shuffled.valid.next job) (shuffled.valid.priority job),
      modifyJob_keeps _ _ fun _ => rfl⟩
  move sched shuffled job created _ _ := by
    have kept : Keeps start (schedulerRemoveJob sched job) := shuffled.keeps.trans removeJob_keeps
    have added := addJob_valid (removeJob_valid shuffled.valid job) (kept.created ▸ created)
      (show 0 < schedulerQueues by decide)
    exact ⟨added, kept.trans (addJob_keeps _ _ _)⟩

theorem time_shuffled (valid : Valid sched) (ran : schedulerTime sched = some after) : Shuffled sched after := by
  have ticked : Shuffled sched (tick sched) := by
    rw [tick]
    split
    · rename_i job _
      have moved : Valid (modifyJob sched job fun running =>
          { running with timeInPriority := running.timeInPriority + timerTimeslot }) :=
        modifyJob_valid valid (valid.next job) (valid.priority job)
      have kept : Keeps sched (modifyJob sched job fun running =>
          { running with timeInPriority := running.timeInPriority + timerTimeslot }) :=
        modifyJob_keeps _ _ fun _ => rfl
      exact ⟨⟨moved.head, moved.next, moved.priority, moved.running⟩,
        ⟨kept.running, kept.created, kept.threads, kept.thread⟩⟩
    · exact ⟨⟨valid.head, valid.next, valid.priority, valid.running⟩, ⟨rfl, rfl, rfl, fun _ => rfl⟩⟩
  simp only [schedulerTime] at ran
  split at ran
  · obtain ⟨boosted, done, rfl⟩ := map_eq_some_iff.mp ran
    obtain ⟨moved, kept⟩ := ticked.trans (priorityBoost_steps (shuffled_steps _) ⟨ticked.valid, Keeps.refl _⟩ done)
    exact ⟨⟨moved.head, moved.next, moved.priority, moved.running⟩, ⟨kept.running, kept.created, kept.threads, kept.thread⟩⟩
  · cases ran
    exact ticked

/-- What a choice of the scheduler leaves: no thread starts running, and if there is
no running job then the thread of the last one has stopped. -/
structure Scheduled (before after : Scheduler) : Prop where
  valid : Valid after
  created : after.created = before.created
  thread : ∀ job, (after.jobs job).thread = (before.jobs job).thread
  privilege : ∀ thread, (after.threads thread).privilege = (before.threads thread).privilege
  fewer : ∀ thread, (after.threads thread).status = .running → (before.threads thread).status = .running
  stopped : after.runningJob = none → ∀ job, before.runningJob = some job →
    (after.threads (before.jobs job).thread).status ≠ .running

theorem requeue_valid (valid : Valid sched) (created : job < sched.created) : Valid (requeue sched job) := by
  have removed := removeJob_valid valid job
  have kept : Keeps sched (schedulerRemoveJob sched job) := removeJob_keeps
  have marked : Valid (setStatus (schedulerRemoveJob sched job) job .ready) :=
    ⟨removed.head, removed.next, removed.priority, removed.running⟩
  have added := addJob_valid marked (show job < (schedulerRemoveJob sched job).created from kept.created ▸ created)
    (nextPriority_lt (marked.priority job))
  simp only [requeue]
  exact modifyJob_valid added (added.next job) (added.priority job)

theorem setStatus_privilege (sched : Scheduler) (job : Nat) (status : ThreadStatus) (thread : Nat) :
    ((setStatus sched job status).threads thread).privilege = (sched.threads thread).privilege := by
  simp only [setStatus, update_apply]
  split
  · rename_i here
    rw [here]
  · rfl

theorem retire_scheduled (valid : Valid sched) (current : sched.runningJob = some job)
    (left : statusOf sched job = .waiting ∨ statusOf sched job = .dead ∨ expired sched job = true) :
    Valid (retire sched job) ∧ (retire sched job).created = sched.created ∧
      (∀ other, ((retire sched job).jobs other).thread = (sched.jobs other).thread) ∧
      (∀ thread, ((retire sched job).threads thread).privilege = (sched.threads thread).privilege) ∧
      (∀ thread, ((retire sched job).threads thread).status = .running → (sched.threads thread).status = .running) ∧
      ((retire sched job).threads (sched.jobs job).thread).status ≠ .running := by
  rw [retire]
  split
  · rename_i dead
    have removed := removeJob_valid valid job
    have kept : Keeps sched (schedulerRemoveJob sched job) := removeJob_keeps
    refine ⟨⟨removed.head, removed.next, removed.priority, fun _ none => by cases none⟩, kept.created,
      kept.thread, ?_, ?_, ?_⟩
    · intro thread
      rw [← kept.threads]
    · intro thread running
      rw [← kept.threads]
      exact running
    · dsimp only
      rw [kept.threads]
      rw [statusOf] at dead
      rw [dead]
      decide
  · rename_i alive
    split
    · obtain ⟨threads, statuses⟩ := requeue_threads sched job
      refine ⟨requeue_valid valid (valid.running job current), (requeue_running sched job).2, threads, ?_, ?_, ?_⟩
      · intro thread
        rw [statuses]
        exact setStatus_privilege sched job .ready thread
      · intro thread running
        rw [statuses] at running
        simp only [setStatus, update_apply] at running
        split at running
        · cases running
        · exact running
      · rw [statuses]
        simp only [setStatus, update_self]
        decide
    · rename_i keeps
      have fresh : expired sched job ≠ true := fun spent => keeps ⟨spent, valid.priority job⟩
      have waiting : statusOf sched job = .waiting := by tauto
      refine ⟨valid, rfl, fun _ => rfl, fun _ => rfl, fun _ => id, ?_⟩
      rw [statusOf] at waiting
      rw [waiting]
      decide

theorem schedule_scheduled (valid : Valid sched) (ran : schedule sched = some after) : Scheduled sched after := by
  have choose : ∀ middle, Valid middle → selectJob middle (List.range schedulerQueues) = some after →
      Valid after ∧ after.created = middle.created ∧ after.jobs = middle.jobs ∧ after.threads = middle.threads := by
    intro middle sound selected
    rcases selectJob_cases selected with ⟨rfl, _⟩ | ⟨priority, _, _, rfl⟩
    · exact ⟨sound, rfl, rfl, rfl⟩
    · exact ⟨⟨sound.head, sound.next, sound.priority, sound.head priority⟩, rfl, rfl, rfl⟩
  rw [schedule] at ran
  split at ran
  · rename_i idle
    obtain ⟨sound, created, jobs, threads⟩ := choose sched valid ran
    refine ⟨sound, created, fun _ => by rw [jobs], fun _ => by rw [threads], fun _ => by rw [threads]; exact id, ?_⟩
    intro _ job current
    rw [idle] at current
    cases current
  · rename_i job current
    split at ran
    · rename_i left
      obtain ⟨retired, made, jobs, privilege, fewer, stopped⟩ := retire_scheduled valid current left
      obtain ⟨sound, created, sameJobs, sameThreads⟩ := choose _ retired ran
      refine ⟨sound, created.trans made, fun other => by rw [sameJobs]; exact jobs other,
        fun thread => by rw [sameThreads]; exact privilege thread,
        fun thread => by rw [sameThreads]; exact fewer thread, fun _ other found => ?_⟩
      rw [current] at found
      cases found
      rw [sameThreads]
      exact stopped
    · cases ran
      refine ⟨valid, rfl, fun _ => rfl, fun _ => rfl, fun _ => id, fun none => ?_⟩
      rw [current] at none
      cases none

/-! ## A running job -/

/-- A queue that is not marked empty has a first job. -/
def Headed (sched : Scheduler) : Prop :=
  ∀ priority, (sched.queues priority).isEmpty = false → (sched.queues priority).head ≠ none

/-- Some queue is left when the job is gone: another one, or its own, in which it has a neighbour. -/
def LeavesQueue (sched : Scheduler) (job : Nat) : Prop :=
  ∃ priority < schedulerQueues, (sched.queues priority).isEmpty = false ∧
    (priority = (sched.jobs job).priority → prevOf sched job ≠ none ∨ nextOf sched job ≠ none)

theorem removeJob_marks (headed : Headed sched) (job priority : Nat) :
    ((schedulerRemoveJob sched job).queues priority).isEmpty = false ↔ (sched.queues priority).isEmpty = false ∧
        (priority = (sched.jobs job).priority → prevOf sched job ≠ none ∨ nextOf sched job ≠ none) := by
  by_cases own : priority = (sched.jobs job).priority
  · have first := headed priority
    rw [own] at first ⊢
    rw [removeJob_queue]
    by_cases front : prevOf sched job = none
    · cases nextOf sched job <;> simp [front]
    · simp only [front, ↓reduceIte, not_false_eq_true, ne_eq, true_or, implies_true, and_true]
      split
      · rename_i gone
        exact iff_of_false (by simp) fun marked => first marked gone
      · rfl
  · rw [removeJob_other _ _ own]
    simp [own]

theorem removeJob_headed (headed : Headed sched) (job : Nat) : Headed (schedulerRemoveJob sched job) := by
  intro priority marked
  by_cases own : priority = (sched.jobs job).priority
  · rw [own, removeJob_queue] at marked ⊢
    intro gone
    dsimp only at marked gone
    rw [if_pos gone] at marked
    cases marked
  · rw [removeJob_other _ _ own] at marked ⊢
    exact headed priority marked

theorem addJob_headed (headed : Headed sched) (job priority : Nat) : Headed (schedulerAddJob sched job priority) := by
  intro other marked
  by_cases own : other = priority
  · rw [own, addJob_queue]
    dsimp only
    split <;> simp [*]
  · rw [addJob_other _ _ own] at marked ⊢
    exact headed other marked

theorem headed_steps : BoostSteps Headed fun _ => True where
  first _ _ _ _ _ _ := trivial
  next _ _ _ _ _ _ := trivial
  clear _ headed _ _ := headed
  move _ headed job _ _ _ := addJob_headed (removeJob_headed headed job) job 0

theorem time_headed (headed : Headed sched) (ran : schedulerTime sched = some after) : Headed after := by
  have ticked : Headed (tick sched) := by
    rw [tick]
    split <;> exact headed
  simp only [schedulerTime] at ran
  split at ran
  · obtain ⟨boosted, done, rfl⟩ := map_eq_some_iff.mp ran
    exact show Headed boosted from priorityBoost_steps headed_steps ticked done
  · cases ran
    exact ticked

theorem retire_headed (headed : Headed sched) (job : Nat) : Headed (retire sched job) := by
  rw [retire]
  split
  · exact removeJob_headed headed job
  · split
    · exact addJob_headed (show Headed (setStatus (schedulerRemoveJob sched job) job .ready) from
        removeJob_headed headed job) job _
    · exact headed

/-- A selection fails when there is no running job and every queue is marked empty. -/
theorem select_running (headed : Headed sched) (ran : selectJob sched (List.range schedulerQueues) = some after) :
    Headed after ∧ (after.runningJob ≠ none ↔ sched.runningJob ≠ none ∨
      ∃ priority < schedulerQueues, (sched.queues priority).isEmpty = false) := by
  rcases selectJob_cases ran with ⟨rfl, empty⟩ | ⟨priority, member, marked, rfl⟩
  · refine ⟨headed, (or_iff_left ?_).symm⟩
    rintro ⟨priority, inside, marked⟩
    rw [empty priority (List.mem_range.mpr inside)] at marked
    cases marked
  · exact ⟨headed, iff_of_true (headed priority marked) (.inr ⟨priority, List.mem_range.mp member, marked⟩)⟩

theorem schedule_headed (headed : Headed sched) (ran : schedule sched = some after) : Headed after := by
  rw [schedule] at ran
  split at ran
  · exact (select_running headed ran).1
  · split at ran
    · exact (select_running (retire_headed headed _) ran).1
    · cases ran
      exact headed

/-- A running job that has not ended is followed by a running job. -/
theorem schedule_running (headed : Headed sched) (current : sched.runningJob = some job)
    (alive : statusOf sched job ≠ .dead) (ran : schedule sched = some after) : after.runningJob ≠ none := by
  have kept : (retire sched job).runningJob ≠ none := by
    rw [retire, if_neg alive]
    split
    · rw [(requeue_running sched job).1, current]
      simp
    · simp [current]
  rw [schedule, current] at ran
  dsimp only at ran
  split at ran
  · exact (select_running (retire_headed headed job) ran).2.mpr (.inl kept)
  · cases ran
    simp [current]

theorem schedule_succeeds (ran : schedule sched = some after) (headed : Headed sched)
    (current : sched.runningJob = some job) (dead : statusOf sched job = .dead) :
    after.runningJob ≠ none ↔ LeavesQueue sched job := by
  rw [schedule, current] at ran
  simp only [dead, true_or, or_true, if_true, retire] at ran
  have removed : Headed { schedulerRemoveJob sched job with runningJob := none } := removeJob_headed headed job
  rw [(select_running removed ran).2]
  simp only [ne_eq, not_true_eq_false, false_or, removeJob_marks headed, LeavesQueue]

end Scheduler

/-! ## The kernel -/

theorem activeStack_rsp0 (stackPtr : Addr) : (gdtSetActiveStack stackPtr).rsp0 = stackPtr := by
  have low : stackPtr.toNat &&& 4294967295 = stackPtr.toNat % 2 ^ 32 :=
    Nat.and_two_pow_sub_one_eq_mod stackPtr.toNat 32
  have high : stackPtr.toNat / 2 ^ 32 &&& 4294967295 = stackPtr.toNat / 2 ^ 32 % 2 ^ 32 :=
    Nat.and_two_pow_sub_one_eq_mod (stackPtr.toNat / 2 ^ 32) 32
  refine eq_of_toNat_eq ?_
  simp only [Tss.rsp0, gdtSetActiveStack, toNat_append, toNat_setWidth, toNat_and,
    toNat_ushiftRight, Nat.shiftRight_eq_div_pow, show (0xFFFFFFFF : BitVec 64).toNat = 4294967295 from rfl,
    low, high]
  rw [← Nat.shiftLeft_add_eq_or_of_lt (by omega), Nat.shiftLeft_eq]
  omega

/-- Only the current thread runs, and then for the running job; the thread of a running
job is the current one. -/
structure Single (kernel : Kernel) : Prop where
  only : ∀ thread, (kernel.sched.threads thread).status = .running → kernel.currentThread = some thread ∧
    ∃ job, kernel.sched.runningJob = some job ∧ (kernel.sched.jobs job).thread = thread
  agreed : ∀ job, kernel.sched.runningJob = some job → kernel.currentThread = some (kernel.sched.jobs job).thread

/-- The kernel between two interrupts, where `stored` is the context each thread was
last interrupted or created with. -/
structure Coherent (kernel : Kernel) (stored : Nat → Addr) : Prop where
  valid : Valid kernel.sched
  made : ∀ job < kernel.sched.created, (kernel.sched.jobs job).thread < kernel.createdThreads
  current : ∀ thread, kernel.currentThread = some thread → thread < kernel.createdThreads
  single : Single kernel
  kept : ∀ thread < kernel.createdThreads, (kernel.infos thread).context = stored thread
  stack : ∀ thread, kernel.currentThread = some thread → (kernel.sched.threads thread).privilege = .user →
    kernel.tss.rsp0 = (kernel.infos thread).interruptStackEnd

section Kernel
variable {kernel next : Kernel} {stored : Nat → Addr}

/-- A change of the scheduler that starts no thread and stops none that it has to. -/
theorem coherent_scheduler (coherent : Coherent kernel stored) {sched : Scheduler} (valid : Valid sched)
    (created : sched.created = kernel.sched.created)
    (thread : ∀ job, (sched.jobs job).thread = (kernel.sched.jobs job).thread)
    (privilege : ∀ thread, (sched.threads thread).privilege = (kernel.sched.threads thread).privilege)
    (single : Single { kernel with sched }) : Coherent { kernel with sched } stored := by
  refine ⟨valid, fun job below => ?_, coherent.current, single, coherent.kept, fun other current user => ?_⟩
  · rw [thread job]
    exact coherent.made job (created ▸ below)
  · rw [privilege other] at user
    exact coherent.stack other current user

theorem time_coherent (coherent : Coherent kernel stored)
    (ran : schedulerTime kernel.sched = some sched) : Coherent { kernel with sched } stored := by
  obtain ⟨valid, kept⟩ := time_shuffled coherent.valid ran
  refine coherent_scheduler coherent valid kept.created kept.thread (fun _ => by rw [kept.threads]) ⟨?_, ?_⟩
  · intro thread running
    rw [kept.threads] at running
    obtain ⟨current, job, found, runs⟩ := coherent.single.only thread running
    exact ⟨current, job, kept.running.trans found, (kept.thread job).trans runs⟩
  · intro job found
    rw [kept.thread job]
    exact coherent.single.agreed job (kept.running ▸ found)

theorem dead_coherent (coherent : Coherent kernel stored) (thread : Nat) :
    Coherent { kernel with sched := withStatus kernel.sched thread .dead } stored := by
  have valid := coherent.valid
  refine coherent_scheduler coherent ⟨valid.head, valid.next, valid.priority, valid.running⟩ rfl (fun _ => rfl) ?_
    ⟨?_, coherent.single.agreed⟩
  · intro other
    simp only [withStatus, update_apply]
    split
    · rename_i here
      rw [here]
    · rfl
  · intro other running
    simp only [withStatus, update_apply] at running
    split at running
    · cases running
    · exact coherent.single.only other running

/-- The fields a switch does not touch. -/
structure SameThreads (kernel next : Kernel) : Prop where
  infos : next.infos = kernel.infos
  created : next.createdThreads = kernel.createdThreads

theorem withStatus_threads (sched : Scheduler) (thread : Nat) (status : ThreadStatus) (other : Nat) :
    ((withStatus sched thread status).threads other).privilege = (sched.threads other).privilege ∧
      ((withStatus sched thread status).threads other).status =
        if other = thread then status else (sched.threads other).status := by
  simp only [withStatus, update_apply]
  split
  · rename_i here
    rw [here]
    exact ⟨rfl, rfl⟩
  · exact ⟨rfl, rfl⟩

/-- After the hand-over the new thread runs, and another one only if it ran before
and was not the previous one. -/
theorem handOver_threads (sched : Scheduler) (previousThread : Option Nat) (threadToRun : Nat) :
    (handOver sched previousThread threadToRun).jobs = sched.jobs ∧
      (handOver sched previousThread threadToRun).created = sched.created ∧
      (handOver sched previousThread threadToRun).queues = sched.queues ∧
      (handOver sched previousThread threadToRun).runningJob = sched.runningJob ∧
      ∀ thread, ((handOver sched previousThread threadToRun).threads thread).privilege =
          (sched.threads thread).privilege ∧
        (((handOver sched previousThread threadToRun).threads thread).status = .running → thread ≠ threadToRun →
          (sched.threads thread).status = .running ∧ previousThread ≠ some thread) := by
  have started := withStatus_threads sched threadToRun .running
  cases previousThread with
  | some previous =>
    simp only [handOver]
    split
    · have stopped := withStatus_threads (withStatus sched threadToRun .running) previous .ready
      refine ⟨rfl, rfl, rfl, rfl, fun thread => ⟨(stopped thread).1.trans (started thread).1, fun runs other => ?_⟩⟩
      rw [(stopped thread).2] at runs
      split at runs
      · cases runs
      · rename_i away
        rw [(started thread).2, if_neg other] at runs
        exact ⟨runs, fun same => away (Option.some.inj same).symm⟩
    · rename_i stays
      refine ⟨rfl, rfl, rfl, rfl, fun thread => ⟨(started thread).1, fun runs other => ?_⟩⟩
      refine ⟨by rwa [(started thread).2, if_neg other] at runs, ?_⟩
      rintro ⟨⟩
      exact stays ⟨other, runs⟩
  | none =>
    refine ⟨rfl, rfl, rfl, rfl, fun thread => ⟨(started thread).1, fun runs other => ?_⟩⟩
    simp only [handOver] at runs
    rw [(started thread).2, if_neg other] at runs
    exact ⟨runs, fun none => by cases none⟩

theorem handOver_runs (sched : Scheduler) (previousThread : Option Nat) (threadToRun : Nat) :
    ((handOver sched previousThread threadToRun).threads threadToRun).status = .running := by
  have started := (withStatus_threads sched threadToRun .running threadToRun).2
  rw [if_pos rfl] at started
  cases previousThread with
  | some previous =>
    simp only [handOver]
    split
    · rename_i stops
      rw [(withStatus_threads _ previous .ready threadToRun).2, if_neg stops.1.symm]
      exact started
    · exact started
  | none => exact started

/-- The stack a switch to the thread sets. -/
def stackFor (kernel : Kernel) (sched : Scheduler) (thread : Nat) : Tss :=
  if (sched.threads thread).privilege ≠ .kernel then gdtSetActiveStack (kernel.infos thread).interruptStackEnd
  else kernel.tss

/-- A switch keeps the current thread when nothing is selected, or hands over to the selected one. -/
theorem switch_cases (ran : taskingSwitch kernel = some next) : ∃ after, schedule kernel.sched = some after ∧
    (after.runningJob = none ∧ next = { kernel with sched := after } ∨ ∃ job, after.runningJob = some job ∧
      next = { kernel with
        sched := handOver after kernel.currentThread (after.jobs job).thread
        tss := stackFor kernel after (after.jobs job).thread
        currentThread := some (after.jobs job).thread }) := by
  obtain ⟨⟨_, after⟩, scheduled, ran⟩ := bind_eq_some_iff.mp ran
  rw [schedulerSchedule, map_eq_some_iff] at scheduled
  obtain ⟨after, done, shape⟩ := scheduled
  cases shape
  refine ⟨after, done, ?_⟩
  cases running : after.runningJob with
  | none =>
    rw [running] at ran
    cases ran
    exact .inl ⟨rfl, rfl⟩
  | some job =>
    rw [running] at ran
    cases ran
    exact .inr ⟨job, rfl, rfl⟩

theorem switch_coherent (coherent : Coherent kernel stored) (ran : taskingSwitch kernel = some next) :
    Coherent next stored ∧ SameThreads kernel next := by
  obtain ⟨after, done, ⟨running, rfl⟩ | ⟨job, running, rfl⟩⟩ := switch_cases ran
  · have facts := schedule_scheduled coherent.valid done
    refine ⟨coherent_scheduler coherent facts.valid facts.created facts.thread facts.privilege ⟨?_, ?_⟩, rfl, rfl⟩
    · intro thread runs
      obtain ⟨_, job, found, rfl⟩ := coherent.single.only thread (facts.fewer thread runs)
      exact absurd runs (facts.stopped running job found)
    · intro job found
      rw [running] at found
      cases found
  · have facts := schedule_scheduled coherent.valid done
    obtain ⟨jobs, created, queues, same, threads⟩ :=
      handOver_threads after kernel.currentThread (after.jobs job).thread
    have below : (after.jobs job).thread < kernel.createdThreads := by
      rw [facts.thread job]
      exact coherent.made job (facts.created ▸ facts.valid.running job running)
    have valid := facts.valid
    refine ⟨⟨⟨?_, ?_, ?_, ?_⟩, ?_, ?_, ⟨?_, ?_⟩, coherent.kept, ?_⟩, rfl, rfl⟩
    · simpa only [queues, created] using valid.head
    · simpa only [jobs, created] using valid.next
    · simpa only [jobs] using valid.priority
    · simpa only [same, created] using valid.running
    · intro other inside
      simp only [jobs, created] at inside ⊢
      rw [facts.thread other]
      exact coherent.made other (facts.created ▸ inside)
    · rintro thread ⟨⟩
      exact below
    · intro thread runs
      by_cases here : thread = (after.jobs job).thread
      · exact ⟨by rw [here], job, same.trans running, by rw [jobs, here]⟩
      · obtain ⟨before, away⟩ := (threads thread).2 runs here
        exact absurd (coherent.single.only thread (facts.fewer thread before)).1 away
    · intro other found
      rw [same, running] at found
      cases found
      rw [jobs]
    · rintro thread ⟨⟩ user
      rw [(threads _).1] at user
      rw [stackFor, if_pos (by rw [user]; decide), activeStack_rsp0]

theorem timer_coherent (coherent : Coherent kernel stored) (ran : requestTimer kernel = some next) :
    Coherent next stored := by
  obtain ⟨sched, timed, ran⟩ := bind_eq_some_iff.mp ran
  exact (switch_coherent (time_coherent coherent timed) ran).1

/-- The stored contexts once the current thread is interrupted. -/
def interrupted (kernel : Kernel) (stored : Nat → Addr) (rsp : Addr) : Nat → Addr :=
  match kernel.currentThread with
  | some thread => Function.update stored thread rsp
  | none => stored

theorem interrupted_some (current : kernel.currentThread = some thread) :
    interrupted kernel stored rsp = update stored thread rsp := by
  unfold interrupted
  rw [current]

theorem interrupted_none (idle : kernel.currentThread = none) : interrupted kernel stored rsp = stored := by
  unfold interrupted
  rw [idle]

/-- A thread's own fields change, but not where its interrupt stack ends. -/
theorem info_coherent (coherent : Coherent kernel stored) {thread : Nat} {info : ThreadInfo} {contexts : Nat → Addr}
    (stack : info.interruptStackEnd = (kernel.infos thread).interruptStackEnd) (here : info.context = contexts thread)
    (others : ∀ other, other ≠ thread → contexts other = stored other) :
    Coherent { kernel with infos := update kernel.infos thread info } contexts := by
  refine ⟨coherent.valid, coherent.made, coherent.current, ⟨coherent.single.only, coherent.single.agreed⟩,
    fun other below => ?_, fun other current user => ?_⟩
  · dsimp only
    by_cases same : other = thread
    · rw [same, update_self, here]
    · rw [update_of_ne same, others other same]
      exact coherent.kept other below
  · have ends := coherent.stack other current user
    dsimp only
    by_cases same : other = thread
    · rw [same] at ends ⊢
      rw [update_self, stack, ends]
    · rw [update_of_ne same, ends]

/-- The thread that was interrupted gets its context stored. -/
theorem save_coherent (coherent : Coherent kernel stored) (thread : Nat) (rsp : Addr) :
    Coherent { kernel with infos := update kernel.infos thread { kernel.infos thread with context := rsp } }
      (update stored thread rsp) :=
  info_coherent coherent rfl (by rw [update_self]) fun other away => update_of_ne away ..

theorem handle_coherent (coherent : Coherent kernel stored) (current : kernel.currentThread = some thread)
    (ran : handle kernel thread call = some next) : Coherent next stored := by
  cases call with
  | exit => exact (switch_coherent (dead_coherent coherent thread) ran).1
  | tcbSet pointer =>
    cases ran
    exact info_coherent coherent rfl (coherent.kept thread (coherent.current thread current)) fun _ _ => rfl
  | other =>
    cases ran
    exact coherent

theorem serve_coherent (coherent : Coherent kernel stored) (ran : serve kernel rsp interrupt = some next) :
    Coherent next (interrupted kernel stored rsp) := by
  unfold serve at ran
  split at ran
  · rename_i thread current
    rw [interrupted_some current]
    have saved := save_coherent coherent thread rsp
    cases interrupt with
    | timer => exact timer_coherent saved ran
    | keyboard =>
      cases ran
      exact saved
    | systemCall call => exact handle_coherent saved current ran
  · rename_i idle
    rw [interrupted_none idle]
    obtain ⟨first, switched, ran⟩ := bind_eq_some_iff.mp ran
    have chosen := (switch_coherent coherent switched).1
    cases interrupt with
    | timer => exact timer_coherent chosen ran
    | keyboard =>
      cases ran
      exact chosen
    | systemCall call =>
      cases ran
      exact chosen

/-- The queues and the running job between two interrupts: that job has not ended. -/
structure Staffed (sched : Scheduler) : Prop where
  headed : Headed sched
  alive : ∀ job, sched.runningJob = some job → statusOf sched job ≠ .dead

/-- After a switch: the job selected runs, and without one the current thread goes on. -/
theorem switch_staffed (ran : taskingSwitch kernel = some next) (headed : Headed kernel.sched) :
    Staffed next.sched ∧ (next.currentThread = kernel.currentThread ∨ next.sched.runningJob ≠ none) ∧
      ∃ after, schedule kernel.sched = some after ∧ next.sched.runningJob = after.runningJob := by
  obtain ⟨after, done, ⟨running, rfl⟩ | ⟨job, running, rfl⟩⟩ := switch_cases ran
  · refine ⟨⟨schedule_headed headed done, fun job found => ?_⟩, .inl rfl, after, done, rfl⟩
    rw [running] at found
    cases found
  · obtain ⟨jobs, _, queues, same, _⟩ := handOver_threads after kernel.currentThread (after.jobs job).thread
    have started := handOver_runs after kernel.currentThread (after.jobs job).thread
    refine ⟨⟨fun priority => ?_, fun other found => ?_⟩, .inr ?_, after, done, same⟩
    · rw [queues]
      exact schedule_headed headed done priority
    · rw [same, running] at found
      cases found
      rw [statusOf, jobs, started]
      decide
    · rw [same, running]
      simp

theorem timer_staffed (valid : Valid kernel.sched) (staffed : Staffed kernel.sched)
    (ran : requestTimer kernel = some next) :
    Staffed next.sched ∧ (next.currentThread = kernel.currentThread ∨ next.sched.runningJob ≠ none) ∧
      (kernel.sched.runningJob ≠ none → next.sched.runningJob ≠ none) := by
  obtain ⟨sched, timed, ran⟩ := bind_eq_some_iff.mp ran
  have headed := time_headed staffed.headed timed
  obtain ⟨after, current, chosen, done, same⟩ := switch_staffed ran headed
  refine ⟨after, current, fun present => ?_⟩
  obtain ⟨job, running⟩ := ne_none_iff_exists'.mp present
  have kept := (time_shuffled valid timed).keeps
  rw [same]
  refine schedule_running headed (kept.running.trans running) ?_ done
  rw [kept.status]
  exact staffed.alive job running

/-- The end of the current thread leaves a queue, if there is a job to end. -/
def Succeeded (kernel : Kernel) (interrupt : Interrupt) : Prop :=
  interrupt = .systemCall .exit → ∀ job, kernel.sched.runningJob = some job → LeavesQueue kernel.sched job

/-- A kernel with a current thread has a running job. -/
def Occupied (kernel : Kernel) : Prop := kernel.currentThread ≠ none → kernel.sched.runningJob ≠ none

theorem exit_staffed (coherent : Coherent kernel stored) (staffed : Staffed kernel.sched)
    (current : kernel.currentThread = some thread) (running : kernel.sched.runningJob = some job)
    (ran : handle kernel thread .exit = some next) :
    Staffed next.sched ∧ (next.sched.runningJob ≠ none ↔ LeavesQueue kernel.sched job) := by
  have ran : taskingSwitch { kernel with sched := withStatus kernel.sched thread .dead } = some next := ran
  have headed : Headed (withStatus kernel.sched thread .dead) := staffed.headed
  obtain ⟨after, _, chosen, done, same⟩ := switch_staffed ran headed
  have own : (kernel.sched.jobs job).thread = thread :=
    Option.some.inj ((coherent.single.agreed job running).symm.trans current)
  have dead : statusOf (withStatus kernel.sched thread .dead) job = .dead := by
    rw [statusOf, (withStatus_threads _ _ _ _).2]
    exact if_pos own
  rw [same]
  have selects := schedule_succeeds done headed running dead
  exact ⟨after, selects⟩

theorem serve_staffed (coherent : Coherent kernel stored) (staffed : Staffed kernel.sched)
    (occupied : Occupied kernel) (ran : serve kernel rsp interrupt = some next) : Staffed next.sched ∧
      (next.currentThread ≠ none → (next.sched.runningJob ≠ none ↔ Succeeded kernel interrupt)) := by
  unfold serve at ran
  split at ran
  · rename_i thread current
    have present := occupied (by simp [current])
    obtain ⟨job, running⟩ := ne_none_iff_exists'.mp present
    have idle : ∀ {next : Kernel}, next.sched.runningJob ≠ none → interrupt ≠ .systemCall .exit →
        (next.sched.runningJob ≠ none ↔ Succeeded kernel interrupt) :=
      fun still other => iff_of_true still fun exit => absurd exit other
    have saved := save_coherent coherent thread rsp
    cases interrupt with
    | timer =>
      obtain ⟨after, _, keeps⟩ := timer_staffed saved.valid staffed ran
      exact ⟨after, fun _ => idle (keeps present) (by simp)⟩
    | keyboard =>
      cases ran
      exact ⟨staffed, fun _ => idle present (by simp)⟩
    | systemCall call =>
      cases call with
      | exit =>
        obtain ⟨after, leaves⟩ := exit_staffed saved staffed current running ran
        refine ⟨after, fun _ => leaves.trans ⟨fun left _ other found => ?_, fun succeeded => succeeded rfl job running⟩⟩
        rw [running] at found
        cases found
        exact left
      | tcbSet pointer =>
        cases ran
        exact ⟨staffed, fun _ => idle present (by simp)⟩
      | other =>
        cases ran
        exact ⟨staffed, fun _ => idle present (by simp)⟩
  · rename_i none
    have succeeded : Succeeded kernel interrupt := fun _ job running => by
      rw [coherent.single.agreed job running] at none
      cases none
    obtain ⟨first, switched, ran⟩ := bind_eq_some_iff.mp ran
    obtain ⟨chosen, current, _⟩ := switch_staffed switched staffed.headed
    rw [none] at current
    cases interrupt with
    | timer =>
      obtain ⟨after, moved, keeps⟩ := timer_staffed (switch_coherent coherent switched).1.valid chosen ran
      refine ⟨after, fun present => iff_of_true ?_ succeeded⟩
      rcases moved with same | running
      · exact keeps (current.resolve_left (same ▸ present))
      · exact running
    | keyboard =>
      cases ran
      exact ⟨chosen, fun present => iff_of_true (current.resolve_left present) succeeded⟩
    | systemCall call =>
      cases ran
      exact ⟨chosen, fun present => iff_of_true (current.resolve_left present) succeeded⟩

theorem newJob_valid (valid : Valid sched) (thread : Nat) : Valid (schedulerNewJob sched thread) := by
  refine addJob_valid ⟨?_, ?_, ?_, ?_⟩ (Nat.lt_succ_self _) (show 0 < schedulerQueues by decide)
  · exact fun priority job link => Nat.lt_succ_of_lt (valid.head priority job link)
  · intro other job link
    simp only [update_apply] at link
    split at link
    · cases link
    · exact Nat.lt_succ_of_lt (valid.next other job link)
  · intro job
    simp only [update_apply]
    split
    · exact show 0 < schedulerQueues by decide
    · exact valid.priority job
  · exact fun job running => Nat.lt_succ_of_lt (valid.running job running)

theorem newJob_threads (sched : Scheduler) (thread : Nat) : (schedulerNewJob sched thread).threads = sched.threads ∧
      (schedulerNewJob sched thread).runningJob = sched.runningJob ∧
      (schedulerNewJob sched thread).created = sched.created + 1 ∧
      ∀ job, ((schedulerNewJob sched thread).jobs job).thread =
        if job = sched.created then thread else (sched.jobs job).thread := by
  have kept := addJob_keeps { sched with
    jobs := update sched.jobs sched.created ⟨thread, 0, 0, none, none⟩
    created := sched.created + 1 } sched.created 0
  refine ⟨kept.threads, kept.running, kept.created, fun job => (kept.thread job).trans ?_⟩
  simp only [update_apply]
  split <;> rfl

theorem create_coherent (coherent : Coherent kernel stored) (privilege : ThreadPrivilege) (info : ThreadInfo) :
    Coherent (taskingCreateThread kernel privilege info) (update stored kernel.createdThreads info.context) := by
  have valid := coherent.valid
  obtain ⟨threads, running, created, jobs⟩ := newJob_threads { kernel.sched with
    threads := update kernel.sched.threads kernel.createdThreads ⟨.ready, privilege⟩ } kernel.createdThreads
  dsimp only at threads running created jobs
  have extended : Valid { kernel.sched with
      threads := update kernel.sched.threads kernel.createdThreads ⟨.ready, privilege⟩ } :=
    ⟨valid.head, valid.next, valid.priority, valid.running⟩
  have old : ∀ thread, kernel.currentThread = some thread → thread ≠ kernel.createdThreads :=
    fun thread current => Nat.ne_of_lt (coherent.current thread current)
  refine ⟨newJob_valid extended _, ?_, ?_, ⟨?_, ?_⟩, ?_, ?_⟩
  · intro job below
    simp only [taskingCreateThread] at below ⊢
    rw [jobs]
    split
    · exact Nat.lt_succ_self _
    · exact Nat.lt_succ_of_lt (coherent.made job (by dsimp only at *; omega))
  · exact fun thread current => Nat.lt_succ_of_lt (coherent.current thread current)
  · intro thread runs
    simp only [taskingCreateThread] at runs ⊢
    rw [threads, update_apply] at runs
    split at runs
    · cases runs
    · obtain ⟨current, job, found, runs⟩ := coherent.single.only thread runs
      refine ⟨current, job, running.trans found, ?_⟩
      rw [jobs, if_neg (Nat.ne_of_lt (valid.running job found))]
      exact runs
  · intro job found
    simp only [taskingCreateThread] at found ⊢
    rw [running] at found
    rw [jobs, if_neg (Nat.ne_of_lt (valid.running job found))]
    exact coherent.single.agreed job found
  · intro thread below
    simp only [taskingCreateThread] at below ⊢
    by_cases here : thread = kernel.createdThreads
    · rw [here, update_self, update_self]
    · rw [update_of_ne here, update_of_ne here]
      exact coherent.kept thread (by omega)
  · intro thread current user
    simp only [taskingCreateThread] at user ⊢
    rw [threads, update_of_ne (old thread current)] at user
    rw [update_of_ne (old thread current)]
    exact coherent.stack thread current user

/-- What the handler returns, and the kernel it leaves, whether or not there is a running job. -/
structure Handled (returned : Addr) (kernel : Kernel) (stored : Nat → Addr) : Prop where
  single : Single kernel
  returned : ∃ thread, kernel.currentThread = some thread ∧ returned = (kernel.infos thread).context
  kept : ∀ thread < kernel.createdThreads, kernel.currentThread ≠ some thread →
    (kernel.infos thread).context = stored thread
  user : ∀ thread, kernel.currentThread = some thread → (kernel.sched.threads thread).privilege = .user →
    kernel.tss.rsp0 = (kernel.infos thread).interruptStackEnd ∧
      kernel.fsBase (kernel.infos thread).context = (kernel.infos thread).userThread

/-- The current thread is the thread of the running job. -/
structure Switched (returned : Addr) (kernel : Kernel) (stored : Nat → Addr) : Prop
    extends Handled returned kernel stored where
  agreed : ∃ job, kernel.sched.runningJob = some job ∧ kernel.currentThread = some (kernel.sched.jobs job).thread

theorem handler_coherent (coherent : Coherent kernel stored)
    (ran : interruptHandler kernel rsp interrupt = some (returned, next)) :
    Coherent next (interrupted kernel stored rsp) ∧ Handled returned next (interrupted kernel stored rsp) := by
  obtain ⟨served, serving, ran⟩ := bind_eq_some_iff.mp ran
  obtain ⟨thread, current, ran⟩ := bind_eq_some_iff.mp ran
  have after := serve_coherent coherent serving
  have still : ∀ fsBase, Coherent { served with fsBase } (interrupted kernel stored rsp) := fun _ =>
    ⟨after.valid, after.made, after.current, ⟨after.single.only, after.single.agreed⟩, after.kept, after.stack⟩
  split at ran
  · cases ran
    refine ⟨still _, (still _).single, ⟨thread, current, rfl⟩, fun other below _ => after.kept other below, ?_⟩
    intro other same user
    refine ⟨after.stack other same user, ?_⟩
    rw [current] at same
    cases same
    exact update_self ..
  · rename_i privileged
    cases ran
    refine ⟨after, after.single, ⟨thread, current, rfl⟩, fun other below _ => after.kept other below, ?_⟩
    intro other same user
    rw [current] at same
    cases same
    exact absurd user privileged

theorem handler_staffed (coherent : Coherent kernel stored) (staffed : Staffed kernel.sched)
    (occupied : Occupied kernel) (ran : interruptHandler kernel rsp interrupt = some (returned, next)) :
    Staffed next.sched ∧ (next.sched.runningJob ≠ none ↔ Succeeded kernel interrupt) := by
  obtain ⟨served, serving, ran⟩ := bind_eq_some_iff.mp ran
  obtain ⟨thread, current, ran⟩ := bind_eq_some_iff.mp ran
  obtain ⟨after, running⟩ := serve_staffed coherent staffed occupied serving
  have same : next.sched = served.sched := by
    split at ran <;> (cases ran; rfl)
  rw [same]
  exact ⟨after, running (by simp [current])⟩

theorem create_staffed (coherent : Coherent kernel stored) (staffed : Staffed kernel.sched)
    (occupied : Occupied kernel) (privilege : ThreadPrivilege) (info : ThreadInfo) :
    Staffed (taskingCreateThread kernel privilege info).sched ∧
      Occupied (taskingCreateThread kernel privilege info) := by
  obtain ⟨threads, running, _, jobs⟩ := newJob_threads { kernel.sched with
    threads := update kernel.sched.threads kernel.createdThreads ⟨.ready, privilege⟩ } kernel.createdThreads
  refine ⟨⟨?_, fun job found => ?_⟩, fun current => ?_⟩
  · have extended : Headed { kernel.sched with
        jobs := update kernel.sched.jobs kernel.sched.created ⟨kernel.createdThreads, 0, 0, none, none⟩
        created := kernel.sched.created + 1
        threads := update kernel.sched.threads kernel.createdThreads ⟨.ready, privilege⟩ } := staffed.headed
    exact addJob_headed extended _ _
  · have found : kernel.sched.runningJob = some job := running.symm.trans found
    have made := coherent.valid.running job found
    have old := coherent.made job made
    simp only [taskingCreateThread, statusOf, threads, jobs, if_neg (Nat.ne_of_lt made), update_of_ne (Nat.ne_of_lt old)]
    exact staffed.alive job found
  · exact fun none => occupied current (running.symm.trans none)

end Kernel

/-! ## Runs -/

/-- The kernels reached by new threads and permitted interrupts, with the contexts that
were stored on the way. -/
inductive Reached (permitted : Kernel → Interrupt → Prop) (start : Kernel) (contexts : Nat → Addr) :
    Kernel → (Nat → Addr) → Prop where
  | boot : Reached permitted start contexts start contexts
  | create (reached : Reached permitted start contexts kernel stored) (privilege : ThreadPrivilege) (info : ThreadInfo) :
    Reached permitted start contexts (taskingCreateThread kernel privilege info)
      (Function.update stored kernel.createdThreads info.context)
  | interrupt (reached : Reached permitted start contexts kernel stored) (rsp : Addr) (interrupt : Interrupt)
      (allowed : permitted kernel interrupt) (ran : interruptHandler kernel rsp interrupt = some (returned, next)) :
    Reached permitted start contexts next (interrupted kernel stored rsp)

theorem boot_coherent (threads : Nat → Thread) (idle : ∀ thread, (threads thread).status ≠ .running)
    (infos : Nat → ThreadInfo) (tss : Tss) (fsBase : Addr → BitVec 64) (contexts : Nat → Addr) :
    Coherent (boot threads infos tss fsBase) contexts := by
  refine ⟨⟨?_, ?_, ?_, ?_⟩, ?_, ?_, ⟨?_, ?_⟩, ?_, ?_⟩
  · exact fun _ _ link => by cases link
  · exact fun _ _ link => by cases link
  · exact fun _ => show 0 < schedulerQueues by decide
  · exact fun _ none => by cases none
  · exact fun _ below => (Nat.not_lt_zero _ below).elim
  · exact fun _ none => by cases none
  · exact fun thread running => absurd running (idle thread)
  · exact fun _ none => by cases none
  · exact fun _ below => (Nat.not_lt_zero _ below).elim
  · exact fun _ none => by cases none

theorem reached_coherent (start : Coherent booted contexts) (reached : Reached permitted booted contexts kernel stored) :
    Coherent kernel stored := by
  induction reached with
  | boot => exact start
  | create _ privilege info ih => exact create_coherent ih privilege info
  | interrupt _ rsp interrupt _ ran ih => exact (handler_coherent ih ran).1

theorem reached_staffed (start : Coherent booted contexts) (staffed : Staffed booted.sched)
    (occupied : Occupied booted) (reached : Reached Succeeded booted contexts kernel stored) :
    Staffed kernel.sched ∧ Occupied kernel := by
  induction reached with
  | boot => exact ⟨staffed, occupied⟩
  | create reached privilege info ih => exact create_staffed (reached_coherent start reached) ih.1 ih.2 privilege info
  | interrupt reached rsp interrupt succeeded ran ih =>
    obtain ⟨after, running⟩ := handler_staffed (reached_coherent start reached) ih.1 ih.2 ran
    exact ⟨after, fun _ => running.mpr succeeded⟩

/-- After every interrupt of every run the current thread alone can be running, its context is
what the handler returns, every other thread has the context it was last interrupted or created
with, and for a user thread the stack of ring 0 and the thread pointer are its own. As long as
every thread that ended has left a queue, the current thread is also the thread of the
running job exactly when this interrupt leaves one. -/
theorem context_switch_iff (threads : Nat → Thread) (idle : ∀ thread, (threads thread).status ≠ .running)
    (infos : Nat → ThreadInfo) (tss : Tss) (fsBase : Addr → BitVec 64) (contexts : Nat → Addr) :
    (∀ kernel stored, Reached (fun _ _ => True) (boot threads infos tss fsBase) contexts kernel stored →
      ∀ rsp interrupt returned next, interruptHandler kernel rsp interrupt = some (returned, next) →
        Handled returned next (interrupted kernel stored rsp)) ∧
    ∀ kernel stored, Reached Succeeded (boot threads infos tss fsBase) contexts kernel stored →
      ∀ rsp interrupt returned next, interruptHandler kernel rsp interrupt = some (returned, next) →
        (Switched returned next (interrupted kernel stored rsp) ↔ Succeeded kernel interrupt) := by
  have start := boot_coherent threads idle infos tss fsBase contexts
  refine ⟨fun kernel stored reached rsp interrupt returned next ran => ?_,
    fun kernel stored reached rsp interrupt returned next ran => ?_⟩
  · exact (handler_coherent (reached_coherent start reached) ran).2
  · have coherent := reached_coherent start reached
    have empty : Staffed (boot threads infos tss fsBase).sched := by
      refine ⟨?_, ?_⟩
      · intro _ marked
        cases marked
      · intro _ none
        cases none
    obtain ⟨staffed, occupied⟩ := reached_staffed start empty (fun present => absurd rfl present) reached
    obtain ⟨_, handled⟩ := handler_coherent coherent ran
    rw [← (handler_staffed coherent staffed occupied ran).2]
    constructor
    · rintro ⟨_, job, running, _⟩
      simp [running]
    · intro present
      obtain ⟨job, running⟩ := ne_none_iff_exists'.mp present
      exact ⟨handled, job, running, handled.single.agreed job running⟩

def emptyKernel : Kernel := boot (fun _ => ⟨.ready, .user⟩) (fun _ => ⟨0, 0, 0⟩) ⟨0, 0⟩ fun _ => 0

/-- A kernel with an idle thread and one of a user. -/
def smallKernel : Kernel :=
  taskingCreateThread (taskingCreateThread emptyKernel .kernel ⟨0x1000, 0, 0⟩) .user ⟨0x2000, 0x900009000, 0x7000⟩

/-- The first timer starts the idle thread; when it exits, the user's runs. -/
theorem context_switch_iff_exit : ∃ kernel next stored,
    interruptHandler smallKernel 0x4000 .timer = some (0x1000, kernel) ∧
      interruptHandler kernel 0x5000 (.systemCall .exit) = some (0x2000, next) ∧ next.tss.rsp0 = 0x900009000 ∧
      Switched 0x2000 next stored := by
  have first : ((interruptHandler smallKernel 0x4000 .timer).map fun result => (result.1, result.2.sched.runningJob,
      (result.2.sched.queues 0).isEmpty, ((result.2.sched.jobs 0).next))) = some (0x1000, some 0, false, some 1) := by
    decide +kernel
  obtain ⟨⟨_, kernel⟩, started, facts⟩ := Option.map_eq_some_iff.mp first
  simp only [Prod.mk.injEq] at facts
  obtain ⟨rfl, running, marked, linked⟩ := facts
  have second : ((interruptHandler smallKernel 0x4000 .timer).bind fun result =>
      interruptHandler result.2 0x5000 (.systemCall .exit)).map (fun result => (result.1, result.2.tss.rsp0)) =
        some (0x2000, 0x900009000) := by decide +kernel
  rw [started, Option.bind_some] at second
  obtain ⟨⟨_, next⟩, exited, facts⟩ := Option.map_eq_some_iff.mp second
  simp only [Prod.mk.injEq] at facts
  obtain ⟨rfl, stack⟩ := facts
  have booted : Reached Succeeded emptyKernel (fun _ => 0) emptyKernel fun _ => 0 := .boot
  have reached := ((booted.create .kernel ⟨0x1000, 0, 0⟩).create .user ⟨0x2000, 0x900009000, 0x7000⟩).interrupt 0x4000
    .timer nofun started
  have succeeded : Succeeded kernel (.systemCall .exit) := by
    intro _ job found
    rw [running] at found
    cases found
    exact ⟨0, by decide, marked, fun _ => .inr (by rw [nextOf, linked]; simp)⟩
  exact ⟨kernel, next, _, started, exited, stack, ((context_switch_iff _ (fun _ => by decide) _ _ _ _).2 kernel _ reached
    0x5000 _ _ next exited).mpr succeeded⟩

/-! ## A thread that is lost -/

/-- Timer interrupts, one after the other. -/
def timers : Nat → Kernel → Option Kernel
  | 0, kernel => some kernel
  | count + 1, kernel => (interruptHandler kernel 0x4000 .timer).bind fun result => timers count result.2

theorem timers_reached (reached : Reached (fun _ _ => True) booted contexts kernel stored)
    (ran : timers count kernel = some next) : ∃ stored, Reached (fun _ _ => True) booted contexts next stored := by
  induction count generalizing kernel stored with
  | zero =>
    cases ran
    exact ⟨stored, reached⟩
  | succ count ih =>
    obtain ⟨⟨returned, middle⟩, first, ran⟩ := bind_eq_some_iff.mp ran
    exact ih (reached.interrupt 0x4000 .timer trivial first) ran

/-- One thread runs down to the last queue while another is made. -/
def crowdedKernel : Option Kernel := do
  let kernel ← timers 228 (taskingCreateThread emptyKernel .user ⟨0x1000, 0, 0⟩)
  timers 266 (taskingCreateThread kernel .user ⟨0x2000, 0, 0⟩)

/-- The back link of the first thread leads to the second when both are in the last queue, so that
queueing it again loses the second: when the first ends, no job is selected, and the dead thread
stays the current one while the other is ready. -/
theorem ready_thread_lost : ∃ kernel stored returned next,
    Reached (fun _ _ => True) emptyKernel (fun _ => 0) kernel stored ∧
      interruptHandler kernel 0x5000 (.systemCall .exit) = some (returned, next) ∧
      next.currentThread = some 0 ∧ (next.sched.threads 0).status = .dead ∧
      (next.sched.jobs 1).thread = 1 ∧ (next.sched.threads 1).status = .ready ∧
      next.sched.runningJob = none ∧ ¬ Switched returned next (interrupted kernel stored 0x5000) := by
  have facts : (crowdedKernel.bind fun kernel => interruptHandler kernel 0x5000 (.systemCall .exit)).map (fun result =>
      (result.2.currentThread, (result.2.sched.threads 0).status, (result.2.sched.jobs 1).thread,
        (result.2.sched.threads 1).status, result.2.sched.runningJob)) = some (some 0, .dead, 1, .ready, none) := by
    decide +kernel
  obtain ⟨⟨returned, next⟩, ran, facts⟩ := Option.map_eq_some_iff.mp facts
  simp only [Prod.mk.injEq] at facts
  obtain ⟨current, dead, thread, ready, none⟩ := facts
  obtain ⟨kernel, made, exited⟩ := bind_eq_some_iff.mp ran
  unfold crowdedKernel at made
  obtain ⟨middle, early, late⟩ := bind_eq_some_iff.mp made
  have booted : Reached (fun _ _ => True) emptyKernel (fun _ => 0) emptyKernel fun _ => 0 := .boot
  obtain ⟨_, reached⟩ := timers_reached (booted.create .user ⟨0x1000, 0, 0⟩) early
  obtain ⟨stored, reached⟩ := timers_reached (reached.create .user ⟨0x2000, 0, 0⟩) late
  refine ⟨kernel, stored, returned, next, reached, exited, current, dead, thread, ready, none, ?_⟩
  rintro ⟨_, job, running, _⟩
  rw [none] at running
  cases running

end LunaOS.ContextInvariant
