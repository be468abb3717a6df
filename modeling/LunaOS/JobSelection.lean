import LunaOS.PriorityBoost

/-! The selection of the next job. The loop that should pass over jobs that are not ready
moves the running job and never the one it looks at, so a selection comes to an end only
when the first job of all queues is ready, or there is none. -/
namespace LunaOS.JobSelection
open JobScheduler SchedulerQueues SchedulerRuns PriorityBoost LinkedQueue BoundedLoop

/-- Following `next` from the first job visits these jobs and ends. -/
def Chained (next : Nat → Option Nat) : List Nat → Prop
  | [] => True
  | job :: rest => next job = rest.head? ∧ Chained next rest

/-- The order a selection finds in a queue. A demoted job's back link may be wrong, which
a walk forward does not see. -/
structure Forward (sched : Scheduler) (priority : Nat) (order : List Nat) : Prop where
  head : (sched.queues priority).head = order.head?
  flag : (sched.queues priority).isEmpty = order.isEmpty
  chained : Chained (nextOf sched) order

theorem chained_of_linked {order : List Nat} (linked : Linked prev next before order none) : Chained next order := by
  induction order generalizing before with
  | nil => trivial
  | cons job rest ih =>
    obtain ⟨_, forward, tail⟩ := linked
    rw [Option.or_none] at forward
    exact ⟨forward, ih tail⟩

theorem forward_of_holds (holds : Holds sched priority order) : Forward sched priority order :=
  ⟨holds.head, holds.flag, chained_of_linked holds.linked⟩

section Requeue
variable {sched : Scheduler} {alive : Nat → Prop} {orders : Nat → List Nat}

theorem forward_frame {after : Scheduler} (forward : Forward sched priority order)
    (queues : after.queues = sched.queues) (same : nextOf after = nextOf sched) : Forward after priority order := by
  obtain ⟨head, flag, chained⟩ := forward
  exact ⟨by rw [queues]; exact head, by rw [queues]; exact flag, by rw [same]; exact chained⟩

/-- Whatever back link it gets, an added job is the last of its queue. -/
theorem addJob_forward (holds : Holds sched priority order) (fresh : job ∉ order) :
    Forward (schedulerAddJob sched job priority) priority (order ++ [job]) where
  head := by
    rw [addJob_queue, holds.head]
    cases order <;> simp
  flag := by
    rw [addJob_queue]
    simp
  chained := by
    have next : nextOf (schedulerAddJob sched job priority) =
        assign (Function.update (nextOf sched) job none) order.getLast? (some job) := by
      funext other
      rw [nextOf, addJob_jobs, holds.tail]
    rw [next]
    exact chained_of_linked (linked_push holds.distinct fresh holds.linked)

/-- The queues when an expired job has gone to the end of its next one. -/
def requeued (orders : Nat → List Nat) (job priority : Nat) : Nat → List Nat :=
  Function.update (fun q => (orders q).erase job) priority ((orders priority).erase job ++ [job])

theorem requeue_forward (arranged : Arranged sched alive orders) (live : alive job) (bound : q < schedulerQueues) :
    Forward (requeue sched job) q (requeued orders job (nextPriority sched job) q) := by
  have lower := nextPriority_lt (arranged_own arranged live).1
  have without : Arranged (setStatus (schedulerRemoveJob sched job) job .ready)
      (fun other => alive other ∧ other ≠ job) (fun priority => (orders priority).erase job) :=
    arranged_frame (arranged_remove arranged live) rfl fun _ => rfl
  have absent : ∀ p < schedulerQueues, job ∉ (orders p).erase job :=
    fun p inside => (arranged.queue p inside).distinct.not_mem_erase
  have target := without.queue _ lower
  have added : Forward (schedulerAddJob (setStatus (schedulerRemoveJob sched job) job .ready) job
      (nextPriority sched job)) q (requeued orders job (nextPriority sched job) q) := by
    unfold requeued
    by_cases here : q = nextPriority sched job
    · rw [here, Function.update_self]
      exact addJob_forward target (absent _ lower)
    · rw [Function.update_of_ne here]
      exact forward_of_holds (addJob_apart target (without.queue q bound) here (absent q bound))
  rw [requeue, nextPriority_removed]
  refine forward_frame added rfl ?_
  funext other
  unfold nextOf
  by_cases here : other = job
  · rw [here, modifyJob_self]
  · rw [modifyJob_other _ _ here]

end Requeue

/-! ## The loop -/

/-- Waiting for a job that is not ready is never over. -/
theorem readyTurn_never (waiting : statusOf sched job ≠ .ready) (turns : Nat) :
    (iterate (readyTurn (some job) priority) turns sched).join = none := by
  cases current : sched.runningJob with
  | none =>
    cases turns with
    | zero => rfl
    | succ turns =>
      have left : readyTurn (some job) priority sched = .leave none := by
        simp only [readyTurn, if_neg waiting, current]
      rw [iterate_leave left (Nat.succ_pos turns)]
      rfl
  | some running =>
    rw [iterate_never (fun state => statusOf state job ≠ .ready ∧ state.runningJob = some running)
      ⟨waiting, current⟩ ?_ turns]
    · rfl
    · rintro state ⟨waits, held⟩
      have removed : Keeps state (schedulerRemoveJob state running) := removeJob_keeps
      have added := removed.trans (addJob_keeps (schedulerRemoveJob state running) running priority)
      simp only [readyTurn, if_neg waits, held]
      refine ⟨_, rfl, ?_⟩
      split
      · exact ⟨by rw [added.status]; exact waits, added.running.trans held⟩
      · exact ⟨by rw [removed.status]; exact waits, removed.running.trans held⟩

/-- A selection ends exactly when the first job of the queues is ready or there is none. -/
theorem selectJob_spec {priorities : List Nat} {orders : Nat → List Nat} {sched : Scheduler}
    (forward : ∀ priority ∈ priorities, Forward sched priority (orders priority)) :
    selectJob sched priorities = match (priorities.flatMap orders).head? with
      | none => some sched
      | some job =>
        if statusOf sched job = .ready then some { sched with runningJob := some job } else none := by
  induction priorities with
  | nil => rfl
  | cons priority rest ih =>
    rw [List.forall_mem_cons] at forward
    obtain ⟨head, flag, _⟩ := forward.1
    rw [selectJob, List.flatMap_cons, flag]
    cases order : orders priority with
    | nil =>
      exact ih forward.2
    | cons job others =>
      rw [order, List.head?_cons] at head
      simp only [List.isEmpty_cons, Bool.false_eq_true, if_false, List.cons_append, List.head?_cons, head]
      by_cases ready : statusOf sched job = .ready
      · have left : readyTurn (some job) priority sched = .leave (some sched) := by
          simp only [readyTurn, if_pos ready]
        rw [iterate_leave left (by decide), if_pos ready]
        rfl
      · rw [readyTurn_never ready, if_neg ready]
        rfl

/-! ## A whole selection -/

/-- The running job is absent, dead, waiting or out of time. -/
def Selecting (sched : Scheduler) : Prop :=
  ∀ job, sched.runningJob = some job →
    statusOf sched job = .waiting ∨ statusOf sched job = .dead ∨ expired sched job = true

/-- The scheduler when the running job is removed or requeued. -/
def retired (sched : Scheduler) : Scheduler :=
  match sched.runningJob with
  | none => sched
  | some job => retire sched job

/-- The queues at that point. -/
def retiredOrders (sched : Scheduler) (orders : Nat → List Nat) : Nat → List Nat :=
  match sched.runningJob with
  | none => orders
  | some job =>
    if statusOf sched job = .dead then fun priority => (orders priority).erase job
    else if expired sched job then requeued orders job (nextPriority sched job)
    else orders

/-- All jobs by priority and position. -/
def candidates (sched : Scheduler) (orders : Nat → List Nat) : List Nat :=
  (List.range schedulerQueues).flatMap (retiredOrders sched orders)

/-- The call returns. When it selects, the first ready job is the one that runs; of the
jobs before it the dead ones are gone and the waiting ones still queued. -/
def SelectsBest (sched : Scheduler) (orders : Nat → List Nat) : Prop :=
  ∃ thread after, schedulerSchedule sched = some (thread, after) ∧
    (Selecting sched → ∃ left : Nat → List Nat, (∀ priority < schedulerQueues, Forward after priority (left priority)) ∧
      ∀ front job back, candidates sched orders = front ++ job :: back →
        (∀ other ∈ front, statusOf (retired sched) other ≠ .ready) →
        statusOf (retired sched) job = .ready → after.runningJob = some job ∧ thread = some (sched.jobs job).thread ∧
          ∀ other ∈ front,
            (statusOf (retired sched) other = .dead → ∀ priority < schedulerQueues, other ∉ left priority) ∧
            (statusOf (retired sched) other = .waiting → ∃ priority < schedulerQueues, other ∈ left priority))

/-- If a job is selected at all, the first of all is ready. -/
def FirstReady (sched : Scheduler) (orders : Nat → List Nat) : Prop :=
  Selecting sched → ∀ job, (candidates sched orders).head? = some job → statusOf (retired sched) job = .ready

section Schedule
variable {sched : Scheduler} {alive : Nat → Prop} {orders : Nat → List Nat}

theorem retired_forward (arranged : Arranged sched alive orders)
    (queued : ∀ job, sched.runningJob = some job → alive job) (bound : priority < schedulerQueues) :
    Forward (retired sched) priority (retiredOrders sched orders priority) := by
  unfold retired retiredOrders
  cases current : sched.runningJob with
  | none => exact forward_of_holds (arranged.queue priority bound)
  | some job =>
    have live := queued job current
    simp only [retire]
    by_cases dead : statusOf sched job = .dead
    · rw [if_pos dead, if_pos dead]
      exact forward_frame (forward_of_holds ((arranged_remove arranged live).queue priority bound)) rfl rfl
    · rw [if_neg dead, if_neg dead]
      by_cases spent : expired sched job = true
      · rw [if_pos ⟨spent, (arranged_own arranged live).1⟩, if_pos spent]
        exact requeue_forward arranged live bound
      · rw [if_neg fun both => spent both.1, if_neg spent]
        exact forward_of_holds (arranged.queue priority bound)

theorem retired_thread (sched : Scheduler) (job : Nat) :
    ((retired sched).jobs job).thread = (sched.jobs job).thread := by
  unfold retired
  split
  · rfl
  · unfold retire
    split
    · exact removeJob_keeps.thread job
    · split
      · exact (requeue_threads ..).1 job
      · rfl

theorem schedule_selecting (selecting : Selecting sched) :
    schedule sched = selectJob (retired sched) (List.range schedulerQueues) := by
  unfold schedule retired
  cases current : sched.runningJob with
  | none => rfl
  | some job => exact if_pos (selecting job current)

theorem schedule_continues (continues : ¬ Selecting sched) : schedule sched = some sched := by
  unfold Selecting at continues
  simp only [not_forall] at continues
  obtain ⟨job, current, stays⟩ := continues
  simp only [schedule, current, if_neg stays]

theorem schedule_spec (arranged : Arranged sched alive orders)
    (queued : ∀ job, sched.runningJob = some job → alive job) (selecting : Selecting sched) :
    schedule sched = match (candidates sched orders).head? with
      | none => some (retired sched)
      | some job => if statusOf (retired sched) job = .ready
          then some { retired sched with runningJob := some job } else none := by
  rw [schedule_selecting selecting]
  apply selectJob_spec
  intro priority member
  exact retired_forward arranged queued (List.mem_range.mp member)

theorem FirstReady.selects (first : FirstReady sched orders) (arranged : Arranged sched alive orders)
    (queued : ∀ job, sched.runningJob = some job → alive job) : SelectsBest sched orders := by
  by_cases selecting : Selecting sched
  · have forward : ∀ priority < schedulerQueues,
        Forward (retired sched) priority (retiredOrders sched orders priority) :=
      fun priority bound => retired_forward arranged queued bound
    have ran := schedule_spec arranged queued selecting
    cases found : (candidates sched orders).head? with
    | none =>
      rw [found] at ran
      refine ⟨_, _, by rw [schedulerSchedule, ran]; rfl, fun _ => ⟨_, forward, ?_⟩⟩
      intro front job back shape
      rw [List.head?_eq_none_iff.mp found] at shape
      simp at shape
    | some job =>
      have ready := first selecting job found
      rw [found] at ran
      simp only [if_pos ready] at ran
      refine ⟨_, { retired sched with runningJob := some job }, by rw [schedulerSchedule, ran]; rfl, fun _ =>
        ⟨_, fun priority bound => forward_frame (forward priority bound) rfl rfl, ?_⟩⟩
      intro front other back shape passed best
      rw [shape] at found
      cases front with
      | nil =>
        cases found
        exact ⟨rfl, congrArg some (retired_thread sched job), by simp⟩
      | cons head front =>
        cases found
        exact absurd ready (passed job List.mem_cons_self)
  · refine ⟨_, _, by rw [schedulerSchedule, schedule_continues selecting]; rfl, fun selects => ?_⟩
    exact absurd selects selecting

theorem SelectsBest.firstReady (best : SelectsBest sched orders) (arranged : Arranged sched alive orders)
    (queued : ∀ job, sched.runningJob = some job → alive job) : FirstReady sched orders := by
  intro selecting job found
  obtain ⟨thread, after, returned, _⟩ := best
  by_contra waiting
  have ran := schedule_spec arranged queued selecting
  simp only [found, if_neg waiting] at ran
  rw [schedulerSchedule, ran] at returned
  cases returned

end Schedule

/-- The call returns with the best job exactly when the first of all queued jobs is ready
or no job is selected. -/
theorem selection_best_iff {sched : Scheduler} {alive : Nat → Prop} {orders : Nat → List Nat}
    (arranged : Arranged sched alive orders) (queued : ∀ job, sched.runningJob = some job → alive job) :
    SelectsBest sched orders ↔ FirstReady sched orders :=
  ⟨fun best => best.firstReady arranged queued, fun first => first.selects arranged queued⟩

/-- The first job is ready and none runs. -/
theorem selection_best_iff_ready : SelectsBest (paired 0 .ready .waiting none) (pairedOrders 0) := by
  refine (selection_best_iff (paired_arranged .ready .waiting none (by decide)) (by simp [paired])).mpr ?_
  intro _ job found
  have first : (candidates (paired 0 .ready .waiting none) (pairedOrders 0)).head? = some 0 := by decide
  cases first.symm.trans found
  decide

/-- The running job waits at the head of its queue: the ready job behind it is never found. -/
theorem waiting_head_never_returns : ¬ SelectsBest (paired 0 .waiting .ready (some 0)) (pairedOrders 0) ∧
    schedulerSchedule (paired 0 .waiting .ready (some 0)) = none ∧
    statusOf (paired 0 .waiting .ready (some 0)) 1 = .ready := by
  have selecting : Selecting (paired 0 .waiting .ready (some 0)) := by
    intro job current
    cases current
    decide
  have ran := schedule_spec (paired_arranged .waiting .ready (some 0) (by decide)) (by simp [paired]) selecting
  have first : (candidates (paired 0 .waiting .ready (some 0)) (pairedOrders 0)).head? = some 0 := by decide
  have waits : ¬ statusOf (retired (paired 0 .waiting .ready (some 0))) 0 = .ready := by decide
  simp only [first, if_neg waits] at ran
  have hangs : schedulerSchedule (paired 0 .waiting .ready (some 0)) = none := by
    rw [schedulerSchedule, ran]
    rfl
  refine ⟨?_, hangs, by decide⟩
  rintro ⟨thread, after, returned, _⟩
  rw [hangs] at returned
  cases returned

end LunaOS.JobSelection
