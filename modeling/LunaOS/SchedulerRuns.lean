import LunaOS.SchedulerQueues
import Mathlib.Data.List.Perm.Subperm

/-! Runs of the scheduler. Ten queues together hold every job that was created
and not yet removed as dead. A job that goes to a queue other than the first is
linked behind the first queue's tail, so the queues stay doubly linked lists in
every run that only demotes past empty queues. -/
namespace LunaOS.SchedulerRuns
open Function JobScheduler SchedulerQueues LinkedQueue BoundedLoop Option

/-- The queues hold exactly the live jobs. -/
structure Arranged (sched : Scheduler) (alive : Nat → Prop) (orders : Nat → List Nat) : Prop where
  queue : ∀ priority < schedulerQueues, Holds sched priority (orders priority)
  member : ∀ job, alive job ↔ ∃ priority < schedulerQueues, job ∈ orders priority

section Steps
variable {sched : Scheduler} {alive : Nat → Prop} {orders : Nat → List Nat}

section Arrangements
variable (arranged : Arranged sched alive orders)
include arranged

theorem arranged_frame {after : Scheduler} (queues : after.queues = sched.queues)
    (same : ∀ job, place (after.jobs job) = place (sched.jobs job)) : Arranged after alive orders where
  queue priority bound :=
    holds_frame (by rw [queues]) (fun job _ => same job) (arranged.queue priority bound)
  member := arranged.member

/-- A live job is in the queue its priority names. -/
theorem arranged_own (live : alive job) : (sched.jobs job).priority < schedulerQueues ∧
      job ∈ orders (sched.jobs job).priority := by
  obtain ⟨priority, bound, held⟩ := (arranged.member job).mp live
  rw [(arranged.queue priority bound).priority job held]
  exact ⟨bound, held⟩

theorem arranged_next (live : alive job) (link : (sched.jobs job).next = some other) : alive other := by
  obtain ⟨priority, bound, held⟩ := (arranged.member job).mp live
  obtain ⟨front, back, shape⟩ := List.append_of_mem held
  have holds := arranged.queue priority bound
  rw [shape] at holds
  have forward := (linked_next holds.linked).2
  rw [or_none] at forward
  have first : back.head? = some other := forward.symm.trans link
  refine (arranged.member other).mpr ⟨priority, bound, ?_⟩
  rw [shape]
  simp [List.mem_of_mem_head? (by rw [first]; rfl)]

theorem arranged_remove (live : alive job) :
    Arranged (schedulerRemoveJob sched job) (fun other => alive other ∧ other ≠ job)
      (fun priority => (orders priority).erase job) := by
  obtain ⟨priority, bound, held⟩ := (arranged.member job).mp live
  obtain ⟨front, back, shape⟩ := List.append_of_mem held
  have holds := arranged.queue priority bound
  have absent : ∀ q < schedulerQueues, q ≠ priority → job ∉ orders q := by
    intro q inside differ
    exact holds_apart holds (arranged.queue q inside) differ held
  have erased : (orders priority).erase job = front ++ back := by
    have distinct := holds.distinct
    rw [shape] at distinct ⊢
    have fresh : job ∉ front := by
      intro early
      exact (List.nodup_append.mp distinct).2.2 job early job (by simp) rfl
    rw [List.erase_append_right _ fresh, List.erase_cons_head]
  constructor
  · intro q inside
    by_cases here : q = priority
    · rw [here, erased]
      exact removeJob_holds (shape ▸ holds)
    · rw [List.erase_of_not_mem (absent q inside here)]
      exact removeJob_apart (shape ▸ holds) (arranged.queue q inside) here
  · intro other
    rw [arranged.member]
    constructor
    · rintro ⟨⟨q, inside, member⟩, differ⟩
      exact ⟨q, inside, (List.mem_erase_of_ne differ).mpr member⟩
    · rintro ⟨q, inside, member⟩
      have present := List.mem_of_mem_erase member
      refine ⟨⟨q, inside, present⟩, ?_⟩
      rintro rfl
      exact (arranged.queue q inside).distinct.not_mem_erase member

theorem arranged_add (fresh : ¬ alive job) (bound : priority < schedulerQueues)
    (tails : (orders 0).getLast? = (orders priority).getLast?) :
    Arranged (schedulerAddJob sched job priority) (fun other => alive other ∨ other = job)
      (update orders priority (orders priority ++ [job])) := by
  have holds := arranged.queue priority bound
  have absent : ∀ q < schedulerQueues, job ∉ orders q :=
    fun q inside member => fresh ((arranged.member job).mpr ⟨q, inside, member⟩)
  constructor
  · intro q inside
    by_cases here : q = priority
    · subst here
      rw [update_self]
      refine addJob_holds holds (absent q inside) ?_
      rw [(arranged.queue 0 (by decide)).tail, holds.tail]
      exact tails
    · rw [update_of_ne here]
      exact addJob_apart holds (arranged.queue q inside) here (absent q inside)
  · intro other
    rw [arranged.member]
    constructor
    · rintro (⟨q, inside, member⟩ | rfl)
      · by_cases here : q = priority
        · exact ⟨q, inside, by rw [here, update_self]; simp [here ▸ member]⟩
        · exact ⟨q, inside, by rw [update_of_ne here]; exact member⟩
      · exact ⟨priority, bound, by rw [update_self]; simp⟩
    · rintro ⟨q, inside, member⟩
      by_cases here : q = priority
      · rw [here, update_self] at member
        rcases List.mem_append.mp member with held | new
        · exact .inl ⟨priority, bound, held⟩
        · exact .inr (List.mem_singleton.mp new)
      · rw [update_of_ne here] at member
        exact .inl ⟨q, inside, member⟩

/-- Taking a live job out and adding it to a queue keeps the arrangement when
that queue and the first then have the same tail. -/
theorem arranged_move {middle : Scheduler}
    (live : alive job) (queues : middle.queues = (schedulerRemoveJob sched job).queues)
    (same : ∀ other, place (middle.jobs other) = place ((schedulerRemoveJob sched job).jobs other))
    (bound : priority < schedulerQueues)
    (tails : ((orders 0).erase job).getLast? = ((orders priority).erase job).getLast?) :
    Arranged (schedulerAddJob middle job priority) alive
      (update (fun q => (orders q).erase job) priority ((orders priority).erase job ++ [job])) := by
  have without := arranged_frame (arranged_remove arranged live) queues same
  have added := arranged_add without (fun both => both.2 rfl) bound tails
  refine ⟨added.queue, ?_⟩
  intro other
  rw [← added.member]
  constructor
  · intro present
    by_cases here : other = job
    · exact .inr here
    · exact .inl ⟨present, here⟩
  · rintro (⟨present, _⟩ | rfl)
    · exact present
    · exact live

end Arrangements

end Steps

/-! ## Boosting -/

/-- The queues are arranged, and the running job is one of theirs, unchanged. -/
structure Stable (alive : Nat → Prop) (running : Option Nat) (created : Nat)
    (sched : Scheduler) : Prop where
  arranged : ∃ orders, Arranged sched alive orders
  running : sched.runningJob = running
  created : sched.created = created

theorem stable_frame {before after : Scheduler} (stable : Stable alive running created before)
    (queues : after.queues = before.queues) (same : ∀ job, place (after.jobs job) = place (before.jobs job))
    (current : after.runningJob = before.runningJob) (made : after.created = before.created) :
    Stable alive running created after := by
  obtain ⟨⟨orders, arranged⟩, running, created⟩ := stable
  exact ⟨⟨orders, arranged_frame arranged queues same⟩, current.trans running, made.trans created⟩

section Boost
variable {sched : Scheduler} {alive : Nat → Prop}

/-- What a boost does to a scheduler keeps a property: to clear the time of a job it comes
to, and to move such a job, unless it runs, to the first queue. -/
structure BoostSteps (holds : Scheduler → Prop) (reached : Nat → Prop) : Prop where
  first : ∀ sched, holds sched → ∀ priority < schedulerQueues, ∀ job,
    (sched.queues priority).head = some job → reached job
  next : ∀ sched, holds sched → ∀ job, reached job → ∀ other, (sched.jobs job).next = some other → reached other
  clear : ∀ sched, holds sched → ∀ job, reached job →
    holds (modifyJob sched job fun boosted => { boosted with timeInPriority := 0 })
  move : ∀ sched, holds sched → ∀ job, reached job → sched.runningJob ≠ some job →
    (sched.jobs job).timeInPriority = 0 → holds (schedulerAddJob (schedulerRemoveJob sched job) job 0)

theorem boostTurn_steps (steps : BoostSteps holds reached) (start : holds state.1)
    (here : ∀ job, state.2 = some job → reached job) (asked : boostTurn priority state = .again next) :
    holds next.1 ∧ ∀ job, next.2 = some job → reached job := by
  obtain ⟨sched, pointer⟩ := state
  cases pointer with
  | none => cases asked
  | some job =>
    have live := here job rfl
    have cleared := steps.clear sched start job live
    cases asked
    dsimp only
    split
    · rename_i goes
      have moved := steps.move _ cleared job live goes.2 (by rw [modifyJob_self])
      exact ⟨moved, steps.next _ moved job live⟩
    · exact ⟨cleared, steps.next _ cleared job live⟩

theorem boostQueue_steps (steps : BoostSteps holds reached) (start : holds sched)
    (bound : priority < schedulerQueues) (ran : boostQueue sched priority = some after) : holds after := by
  obtain ⟨⟨last, pointer⟩, ⟨final, _⟩, left⟩ := iterate_invariant
    (fun state : Scheduler × Option Nat => holds state.1 ∧ ∀ job, state.2 = some job → reached job)
    (fun _ _ kept asked => boostTurn_steps steps kept.1 kept.2 asked) ⟨start, steps.first _ start _ bound⟩ ran
  cases pointer with
  | none => cases left; exact final
  | some job => cases left

/-- The queues a boost walks along. -/
theorem boosted_bound : ∀ priority ∈ List.range (schedulerQueues - 1), priority < schedulerQueues := by
  intro priority member
  have bound := List.mem_range.mp member
  simp only [schedulerQueues] at bound ⊢
  omega

theorem priorityBoost_steps (steps : BoostSteps holds reached) (start : holds sched)
    (ran : schedulerPriorityBoost sched = some after) : holds after := by
  have bounds := boosted_bound
  rw [schedulerPriorityBoost] at ran
  generalize List.range (schedulerQueues - 1) = priorities at ran bounds
  induction priorities generalizing sched with
  | nil =>
    cases ran
    exact start
  | cons priority rest ih =>
    rw [List.foldlM_cons] at ran
    obtain ⟨middle, first, onward⟩ := bind_eq_some_iff.mp ran
    exact ih (boostQueue_steps steps start (bounds priority List.mem_cons_self) first) onward
      fun other member => bounds other (List.mem_cons_of_mem priority member)

theorem stable_steps : BoostSteps (Stable alive running created) alive where
  first sched stable priority bound job first := by
    obtain ⟨orders, arranged⟩ := stable.arranged
    rw [(arranged.queue priority bound).head] at first
    exact (arranged.member job).mpr ⟨priority, bound, List.mem_of_mem_head? (by rw [first]; rfl)⟩
  next sched stable job live other link := by
    obtain ⟨orders, arranged⟩ := stable.arranged
    exact arranged_next arranged live link
  clear sched stable job _ := stable_frame stable rfl (modifyJob_place _ _ fun _ => rfl) rfl rfl
  move sched stable job live _ _ := by
    obtain ⟨⟨orders, arranged⟩, running, created⟩ := stable
    have settled := arranged_move arranged live rfl (fun _ => rfl) (show 0 < schedulerQueues by decide) rfl
    have kept : Keeps sched (schedulerAddJob (schedulerRemoveJob sched job) job 0) :=
      removeJob_keeps.trans (addJob_keeps _ job 0)
    exact ⟨⟨_, settled⟩, kept.running.trans running, kept.created.trans created⟩

theorem arranged_following (arranged : Arranged sched alive orders) (bound : priority < schedulerQueues)
    (shape : orders priority = front ++ job :: back) : (sched.jobs job).next = back.head? := by
  have holds := arranged.queue priority bound
  rw [shape] at holds
  simpa only [or_none, nextOf] using (linked_next holds.linked).2

/-- A job at the end of the first queue is followed by none. -/
theorem moved_last (arranged : Arranged sched alive orders) (live : alive job) :
    ((schedulerAddJob (schedulerRemoveJob sched job) job 0).jobs job).next = none := by
  have without := (arranged_remove arranged live).queue 0 (by decide)
  have foreign : ((schedulerRemoveJob sched job).queues 0).tail ≠ some job := by
    rw [without.tail]
    exact fun last => (arranged.queue 0 (by decide)).distinct.not_mem_erase (List.mem_of_getLast? last)
  rw [addJob_jobs, assign_other foreign]
  simp

theorem arranged_short (arranged : Arranged sched alive orders)
    (made : ∀ job, alive job → job < sched.created) (bound : priority < schedulerQueues) :
    (orders priority).length ≤ sched.created := by
  have inside : orders priority ⊆ List.range sched.created := by
    intro job member
    exact List.mem_range.mpr (made job ((arranged.member job).mpr ⟨priority, bound, member⟩))
  simpa using (List.subperm_of_subset (arranged.queue priority bound).distinct inside).length_le

end Boost

/-! ## Selecting -/

/-- The loop that waits for a job only returns when it had not to wait. -/
theorem readyTurn_returns
    (ran : iterate (readyTurn job priority) turns sched = some (some after)) : after = sched := by
  cases turns with
  | zero => cases ran
  | succ turns =>
    cases job with
    | none =>
      rw [iterate_leave (show readyTurn none priority sched = .leave (some sched) from rfl)
        (Nat.succ_pos turns)] at ran
      cases ran
      rfl
    | some job =>
      by_cases ready : statusOf sched job = .ready
      · rw [iterate_leave (by rw [readyTurn, if_pos ready]) (Nat.succ_pos turns)] at ran
        cases ran
        rfl
      · obtain ⟨last, waiting, left⟩ := iterate_invariant (fun state => statusOf state job ≠ .ready)
          (by
            intro state next waiting asked
            simp only [readyTurn, if_neg waiting] at asked
            split at asked
            · cases asked
            · cases asked
              split
              · rw [(removeJob_keeps.trans (addJob_keeps ..)).status]
                exact waiting
              · rw [removeJob_keeps.status]
                exact waiting) ready ran
        simp only [readyTurn, if_neg waiting] at left
        split at left <;> cases left

theorem selectJob_cases {priorities : List Nat} (ran : selectJob sched priorities = some after) :
    (after = sched ∧ ∀ priority ∈ priorities, (sched.queues priority).isEmpty = true) ∨
      ∃ priority ∈ priorities, (sched.queues priority).isEmpty = false ∧
        after = { sched with runningJob := (sched.queues priority).head } := by
  induction priorities with
  | nil => cases ran; exact .inl ⟨rfl, by simp⟩
  | cons priority rest ih =>
    rw [selectJob] at ran
    by_cases empty : (sched.queues priority).isEmpty = true
    · rw [if_pos empty] at ran
      rcases ih ran with ⟨same, others⟩ | ⟨found, member, rest⟩
      · exact .inl ⟨same, List.forall_mem_cons.mpr ⟨empty, others⟩⟩
      · exact .inr ⟨found, by simp [member], rest⟩
    · rw [if_neg empty] at ran
      obtain ⟨waited, returned, result⟩ := map_eq_some_iff.mp ran
      cases readyTurn_returns (join_eq_some_iff.mp returned)
      exact .inr ⟨priority, by simp, by simpa using empty, result.symm⟩

/-! ## Scheduling -/

/-- No job other than this one is at either end of the queue. -/
def Vacant (sched : Scheduler) (priority job : Nat) : Prop :=
  (∀ other, (sched.queues priority).head = some other → other = job) ∧
    ∀ other, (sched.queues priority).tail = some other → other = job

theorem vacant_erase (holds : Holds sched priority order) (vacant : Vacant sched priority job) :
    order.erase job = [] := by
  cases order with
  | nil => rfl
  | cons first rest =>
    cases vacant.1 first (by rw [holds.head]; rfl)
    rw [List.erase_cons_head]
    rcases List.eq_nil_or_concat rest with empty | ⟨front, last, shape⟩
    · exact empty
    · have same : last = job := by
        refine vacant.2 last ?_
        rw [holds.tail, shape]
        simp [List.getLast?_cons]
      have distinct := (List.nodup_cons.mp holds.distinct).1
      rw [shape, same] at distinct
      simp at distinct

/-- The demotion of the running job that is about to happen, if any, is to the
first queue or past empty ones. -/
def CleanDemotion (sched : Scheduler) : Prop :=
  ∀ job, sched.runningJob = some job → statusOf sched job ≠ .dead →
    expired sched job = true → nextPriority sched job = 0 ∨
      (Vacant sched 0 job ∧ Vacant sched (nextPriority sched job) job)

theorem nextPriority_lt (bound : (sched.jobs job).priority < schedulerQueues) :
    nextPriority sched job < schedulerQueues := by
  simp only [nextPriority]
  split
  · simp only [schedulerQueues] at *
    omega
  · exact bound

section Schedule
variable {sched : Scheduler} {alive : Nat → Prop} {orders : Nat → List Nat}

/-- The place a requeued job goes to does not depend on its removal. -/
theorem nextPriority_removed : nextPriority (setStatus (schedulerRemoveJob sched job) job .ready) job =
    nextPriority sched job := by
  have thread : ((schedulerRemoveJob sched job).jobs job).thread = (sched.jobs job).thread :=
    removeJob_keeps.thread job
  have priority : ((schedulerRemoveJob sched job).jobs job).priority =
      (sched.jobs job).priority := by rw [removeJob_jobs]
  simp only [nextPriority, setStatus, thread, priority, removeJob_keeps.threads, update_self]

theorem requeue_arranged (arranged : Arranged sched alive orders) (live : alive job)
    (clean : nextPriority sched job = 0 ∨ (Vacant sched 0 job ∧ Vacant sched (nextPriority sched job) job)) :
    ∃ orders, Arranged (requeue sched job) alive orders := by
  have bound := nextPriority_lt (arranged_own arranged live).1
  have tails : ((orders 0).erase job).getLast? = ((orders (nextPriority sched job)).erase job).getLast? := by
    rcases clean with first | ⟨lowest, target⟩
    · rw [first]
    · rw [vacant_erase (arranged.queue 0 (by decide)) lowest, vacant_erase (arranged.queue _ bound) target]
  have settled := arranged_move arranged live
    (show (setStatus (schedulerRemoveJob sched job) job .ready).queues = _ from rfl)
    (fun _ => rfl) bound tails
  rw [requeue, nextPriority_removed]
  exact ⟨_, arranged_frame settled rfl (modifyJob_place _ _ fun _ => rfl)⟩

theorem requeue_running (sched : Scheduler) (job : Nat) : (requeue sched job).runningJob = sched.runningJob ∧
      (requeue sched job).created = sched.created := by
  have added := addJob_keeps (setStatus (schedulerRemoveJob sched job) job .ready) job
    (nextPriority (setStatus (schedulerRemoveJob sched job) job .ready) job)
  have removed : Keeps sched (schedulerRemoveJob sched job) := removeJob_keeps
  exact ⟨added.running.trans removed.running, added.created.trans removed.created⟩

theorem requeue_threads (sched : Scheduler) (job : Nat) :
    (∀ other, ((requeue sched job).jobs other).thread = (sched.jobs other).thread) ∧
      (requeue sched job).threads = (setStatus sched job .ready).threads := by
  have removed : Keeps sched (schedulerRemoveJob sched job) := removeJob_keeps
  have added := addJob_keeps (setStatus (schedulerRemoveJob sched job) job .ready) job
    (nextPriority (setStatus (schedulerRemoveJob sched job) job .ready) job)
  have reset : Keeps (schedulerAddJob (setStatus (schedulerRemoveJob sched job) job .ready) job
      (nextPriority (setStatus (schedulerRemoveJob sched job) job .ready) job)) (requeue sched job) := by
    simp only [requeue]
    exact modifyJob_keeps _ job fun _ => rfl
  refine ⟨fun other => ?_, ?_⟩
  · exact (reset.thread other).trans ((added.thread other).trans (removed.thread other))
  · refine (reset.threads.trans added.threads).trans ?_
    simp only [setStatus, removed.thread, removed.threads]

end Schedule

/-! ## Whole runs -/

/-- The scheduler and the jobs it removed because their thread was dead. -/
structure Machine where
  sched : Scheduler
  removed : List Nat

def Machine.Alive (machine : Machine) (job : Nat) : Prop :=
  job < machine.sched.created ∧ job ∉ machine.removed

/-- The calls of a run, and the running thread's end. -/
inductive Event where
  | newJob (thread : Nat)
  | time
  | schedule
  | priorityBoost
  | exit
  deriving DecidableEq, Repr

/-- The running job, when its thread is dead. -/
def deadJob (sched : Scheduler) : Option Nat :=
  sched.runningJob.filter fun job => statusOf sched job = .dead

def perform (machine : Machine) : Event → Option Machine
  | .newJob thread => some { machine with sched := schedulerNewJob machine.sched thread }
  | .time => (schedulerTime machine.sched).map fun after => { machine with sched := after }
  | .schedule => (schedulerSchedule machine.sched).map fun result =>
      ⟨result.2, (deadJob machine.sched).toList ++ machine.removed⟩
  | .priorityBoost =>
    (schedulerPriorityBoost machine.sched).map fun after => { machine with sched := after }
  | .exit => some { machine with
      sched := match machine.sched.runningJob with
        | some job => setStatus machine.sched job .dead
        | none => machine.sched }

def boot (threads : Nat → Thread) : Machine := ⟨schedulerInit threads, []⟩

/-- Each queue is a well-formed doubly linked list of jobs of its priority, and
every live job, and no other, is in exactly one of them, once. -/
def Correct (machine : Machine) : Prop :=
  ∃ orders : Nat → List Nat, (∀ priority < schedulerQueues, Holds machine.sched priority (orders priority)) ∧
    ∀ job, (machine.Alive job → ∃! priority, priority < schedulerQueues ∧ job ∈ orders priority) ∧
      (¬ machine.Alive job → ∀ priority < schedulerQueues, job ∉ orders priority)

def Clean (machine : Machine) : Event → Prop
  | .schedule => CleanDemotion machine.sched
  | _ => True

/-- A run that returned, each of whose steps was clean in the state it was taken in. -/
inductive CleanRun (start : Machine) : Machine → Prop where
  | refl : CleanRun start start
  | step (run : CleanRun start machine) (event : Event) (clean : Clean machine event)
      (ran : perform machine event = some next) : CleanRun start next

structure Sound (machine : Machine) : Prop where
  arranged : ∃ orders, Arranged machine.sched machine.Alive orders
  running : ∀ job, machine.sched.runningJob = some job → machine.Alive job
  gone : ∀ job ∈ machine.removed, job < machine.sched.created

theorem sound_correct (sound : Sound machine) : Correct machine := by
  obtain ⟨orders, arranged⟩ := sound.arranged
  refine ⟨orders, arranged.queue, ?_⟩
  intro job
  constructor
  · intro alive
    obtain ⟨priority, bound, member⟩ := (arranged.member job).mp alive
    refine ⟨priority, ⟨bound, member⟩, ?_⟩
    rintro other ⟨inside, held⟩
    exact ((arranged.queue other inside).priority job held).symm.trans
      ((arranged.queue priority bound).priority job member)
  · intro gone priority bound member
    exact gone ((arranged.member job).mpr ⟨priority, bound, member⟩)

theorem newJob_sound (sound : Sound machine) :
    Sound { machine with sched := schedulerNewJob machine.sched thread } := by
  obtain ⟨⟨orders, arranged⟩, running, gone⟩ := sound
  have absent : ¬ machine.Alive machine.sched.created := fun alive => Nat.lt_irrefl _ alive.1
  have spared : machine.sched.created ∉ machine.removed :=
    fun member => Nat.lt_irrefl _ (gone _ member)
  let grown : Scheduler := { machine.sched with
    jobs := update machine.sched.jobs machine.sched.created ⟨thread, 0, 0, none, none⟩
    created := machine.sched.created + 1 }
  have still : Arranged grown machine.Alive orders := by
    refine ⟨?_, arranged.member⟩
    intro priority bound
    have queue := arranged.queue priority bound
    refine holds_frame (show grown.queues priority = machine.sched.queues priority from rfl) ?_ queue
    intro job member
    have differ : job ≠ machine.sched.created := by
      intro same
      exact absent ((arranged.member _).mpr ⟨priority, bound, same ▸ member⟩)
    simp [grown, differ]
  have added := arranged_add still absent (show 0 < schedulerQueues by decide) rfl
  have kept := addJob_keeps grown machine.sched.created 0
  have created : (schedulerNewJob machine.sched thread).created = machine.sched.created + 1 :=
    kept.created
  have same : (schedulerNewJob machine.sched thread).runningJob = machine.sched.runningJob :=
    kept.running
  refine ⟨⟨_, added.queue, ?_⟩, ?_, ?_⟩
  · intro job
    rw [← added.member]
    simp only [Machine.Alive, created]
    constructor
    · rintro ⟨below, kept⟩
      rcases Nat.lt_succ_iff_lt_or_eq.mp below with older | new
      · exact .inl ⟨older, kept⟩
      · exact .inr new
    · rintro (⟨older, kept⟩ | rfl)
      · exact ⟨Nat.lt_succ_of_lt older, kept⟩
      · exact ⟨Nat.lt_succ_self _, spared⟩
  · intro job current
    rw [same] at current
    obtain ⟨below, kept⟩ := running job current
    exact ⟨by rw [created]; exact Nat.lt_succ_of_lt below, kept⟩
  · intro job member
    rw [created]
    exact Nat.lt_succ_of_lt (gone job member)

/-- A step that keeps the arrangement, the running job and the jobs created. -/
theorem sound_of_stable {after : Scheduler} (sound : Sound machine)
    (stable : Stable machine.Alive machine.sched.runningJob machine.sched.created after) :
    Sound { machine with sched := after } := by
  have alive : Machine.Alive { machine with sched := after } = machine.Alive := by
    funext job
    simp only [Machine.Alive, stable.created]
  refine ⟨?_, ?_, ?_⟩
  · rw [alive]
    exact stable.arranged
  · intro job current
    rw [alive]
    exact sound.running job (stable.running ▸ current)
  · intro job member
    exact stable.created ▸ sound.gone job member

theorem sound_stable (sound : Sound machine) :
    Stable machine.Alive machine.sched.runningJob machine.sched.created machine.sched :=
  ⟨sound.arranged, rfl, rfl⟩

theorem tick_stable (stable : Stable alive running created sched) : Stable alive running created (tick sched) := by
  simp only [tick]
  split
  · rename_i job _
    have counted : Stable alive running created (modifyJob sched job fun current =>
        { current with timeInPriority := current.timeInPriority + timerTimeslot }) :=
      stable_frame stable rfl (modifyJob_place _ _ fun _ => rfl) rfl rfl
    exact stable_frame counted rfl (fun _ => rfl) rfl rfl
  · exact stable_frame stable rfl (fun _ => rfl) rfl rfl

theorem time_stable (stable : Stable alive running created sched)
    (ran : schedulerTime sched = some after) : Stable alive running created after := by
  simp only [schedulerTime] at ran
  split at ran
  · obtain ⟨boosted, returned, rfl⟩ := map_eq_some_iff.mp ran
    exact stable_frame (priorityBoost_steps stable_steps (tick_stable stable) returned) rfl (fun _ => rfl) rfl rfl
  · cases ran
    exact tick_stable stable

section Scheduling
variable {sched : Scheduler} (sound : Sound ⟨sched, removed⟩)
include sound

/-- Selecting makes the head of some queue the running job. -/
theorem select_sound (ran : selectJob sched (List.range schedulerQueues) = some after) : Sound ⟨after, removed⟩ := by
  rcases selectJob_cases ran with ⟨rfl, _⟩ | ⟨priority, member, _, rfl⟩
  · exact sound
  · obtain ⟨⟨orders, arranged⟩, _, gone⟩ := sound
    refine ⟨⟨orders, arranged_frame arranged rfl (fun _ => rfl)⟩, ?_, gone⟩
    intro job current
    have bound := List.mem_range.mp member
    have first : (orders priority).head? = some job :=
      (arranged.queue priority bound).head.symm.trans current
    exact (arranged.member job).mpr ⟨priority, bound, List.mem_of_mem_head? (by rw [first]; rfl)⟩

/-- A dead job leaves the queues for good. -/
theorem retire_dead (current : sched.runningJob = some job) (dead : statusOf sched job = .dead) :
    Sound ⟨retire sched job, job :: removed⟩ := by
  obtain ⟨⟨orders, arranged⟩, running, gone⟩ := sound
  have live := running job current
  have without := arranged_remove arranged live
  have made : (schedulerRemoveJob sched job).created = sched.created := removeJob_keeps.created
  have cleared : Arranged { schedulerRemoveJob sched job with runningJob := none }
      (fun other => Machine.Alive ⟨sched, removed⟩ other ∧ other ≠ job)
      (fun priority => (orders priority).erase job) := arranged_frame without rfl (fun _ => rfl)
  rw [retire, if_pos dead]
  refine ⟨⟨_, cleared.queue, ?_⟩, ?_, ?_⟩
  · intro other
    rw [← cleared.member]
    simp only [Machine.Alive, made, List.mem_cons, not_or]
    constructor
    · rintro ⟨below, differ, kept⟩
      exact ⟨⟨below, kept⟩, differ⟩
    · rintro ⟨⟨below, kept⟩, differ⟩
      exact ⟨below, differ, kept⟩
  · intro other none
    cases none
  · intro other member
    change other < (schedulerRemoveJob sched job).created
    rw [made]
    rcases List.mem_cons.mp member with rfl | earlier
    · exact live.1
    · exact gone other earlier

theorem retire_alive (clean : CleanDemotion sched) (current : sched.runningJob = some job)
    (living : statusOf sched job ≠ .dead) : Sound ⟨retire sched job, removed⟩ := by
  rw [retire, if_neg living]
  split
  · rename_i demoted
    obtain ⟨orders, arranged⟩ := sound.arranged
    obtain ⟨kept, made⟩ := requeue_running sched job
    have moved := requeue_arranged arranged (sound.running job current)
      (clean job current living demoted.1)
    exact sound_of_stable sound ⟨moved, kept, made⟩
  · exact sound

theorem schedule_sound (clean : CleanDemotion sched) (ran : schedule sched = some after) :
    Sound ⟨after, (deadJob sched).toList ++ removed⟩ := by
  rw [schedule] at ran
  split at ran
  · rename_i idle
    rw [deadJob, idle]
    exact select_sound sound ran
  · rename_i job current
    rw [deadJob, current]
    by_cases dead : statusOf sched job = .dead
    · rw [if_pos (.inr (.inl dead))] at ran
      simp only [filter_some, dead, decide_true, ↓reduceIte]
      exact select_sound (retire_dead sound current dead) ran
    · simp only [filter_some, dead, decide_false, Bool.false_eq_true, ↓reduceIte]
      split at ran
      · exact select_sound (retire_alive sound clean current dead) ran
      · cases ran
        exact sound

end Scheduling

theorem perform_sound (sound : Sound machine) (clean : Clean machine event)
    (ran : perform machine event = some next) : Sound next := by
  cases event with
  | newJob thread =>
    cases ran
    exact newJob_sound sound
  | time =>
    obtain ⟨after, returned, rfl⟩ := map_eq_some_iff.mp ran
    exact sound_of_stable sound (time_stable (sound_stable sound) returned)
  | schedule =>
    obtain ⟨result, returned, rfl⟩ := map_eq_some_iff.mp ran
    obtain ⟨after, selected, rfl⟩ := map_eq_some_iff.mp returned
    exact schedule_sound sound clean selected
  | priorityBoost =>
    obtain ⟨after, returned, rfl⟩ := map_eq_some_iff.mp ran
    exact sound_of_stable sound (priorityBoost_steps stable_steps (sound_stable sound) returned)
  | exit =>
    cases ran
    refine sound_of_stable sound ?_
    split
    · exact stable_frame (sound_stable sound) rfl (fun _ => rfl) rfl rfl
    · exact sound_stable sound

theorem boot_sound (threads : Nat → Thread) : Sound (boot threads) where
  arranged := by
    refine ⟨fun _ => [], ?_, ?_⟩
    · intro priority _
      exact ⟨rfl, rfl, rfl, trivial, by simp, List.nodup_nil⟩
    · intro job
      simp [Machine.Alive, boot, schedulerInit]
  running := by
    intro job none
    cases none
  gone := by
    intro job none
    cases none

theorem vacant_of_erase (holds : Holds sched priority order) (empty : order.erase job = []) :
    Vacant sched priority job := by
  have only : ∀ other ∈ order, other = job := by
    intro other member
    by_contra differ
    have kept := (List.mem_erase_of_ne differ).mpr member
    rw [empty] at kept
    cases kept
  constructor
  · intro other first
    rw [holds.head] at first
    exact only other (List.mem_of_mem_head? (by rw [first]; rfl))
  · intro other last
    rw [holds.tail] at last
    exact only other (List.mem_of_getLast? last)

/-- A demotion that is not clean leaves a wrong back link. -/
theorem requeue_clean (others : Nat → List Nat) (arranged : Arranged sched alive orders)
    (live : alive job) (target : nextPriority sched job ≠ 0)
    (holds : ∀ priority < schedulerQueues, Holds (requeue sched job) priority (others priority)) :
    Vacant sched 0 job ∧ Vacant sched (nextPriority sched job) job := by
  have bound := nextPriority_lt (arranged_own arranged live).1
  have without : Arranged (setStatus (schedulerRemoveJob sched job) job .ready)
      (fun other => alive other ∧ other ≠ job) (fun priority => (orders priority).erase job) :=
    arranged_frame (arranged_remove arranged live) rfl (fun _ => rfl)
  have added : ∀ priority < schedulerQueues,
      Holds (schedulerAddJob (setStatus (schedulerRemoveJob sched job) job .ready) job
        (nextPriority sched job)) priority (others priority) := by
    intro priority inside
    have moved := holds priority inside
    rw [requeue, nextPriority_removed] at moved
    refine holds_frame ?_ ?_ moved
    · rfl
    · intro other _
      symm
      refine modifyJob_place _ _ ?_ other
      intro record
      rfl
  obtain ⟨lowest, empty⟩ := addJob_empty (without.queue 0 (by decide)) (without.queue _ bound)
    (arranged.queue _ bound).distinct.not_mem_erase target (added 0 (by decide)) (added _ bound)
  exact ⟨vacant_of_erase (arranged.queue 0 (by decide)) lowest, vacant_of_erase (arranged.queue _ bound) empty⟩

theorem schedule_clean (sound : Sound machine) (ran : perform machine .schedule = some next)
    (correct : Correct next) : CleanDemotion machine.sched := by
  intro job current living demoted
  by_cases target : nextPriority machine.sched job = 0
  · exact .inl target
  · obtain ⟨orders, arranged⟩ := sound.arranged
    obtain ⟨others, holds, _⟩ := correct
    have live := sound.running job current
    obtain ⟨result, returned, rfl⟩ := map_eq_some_iff.mp ran
    obtain ⟨after, selected, rfl⟩ := map_eq_some_iff.mp returned
    rw [schedule, current] at selected
    simp only [demoted, or_true, ↓reduceIte] at selected
    rw [retire, if_neg living, if_pos ⟨demoted, (arranged_own arranged live).1⟩] at selected
    refine .inr (requeue_clean others arranged live target ?_)
    intro priority bound
    rcases selectJob_cases selected with ⟨rfl, _⟩ | ⟨_, _, _, rfl⟩
    · exact holds priority bound
    · refine holds_frame ?_ ?_ (holds priority bound)
      · rfl
      · exact fun _ _ => rfl

theorem run_sound (run : CleanRun (boot threads) machine) : Sound machine := by
  induction run with
  | refl => exact boot_sound threads
  | step _ event clean ran ih => exact perform_sound ih clean ran

/-- In every state that a run of clean steps reaches, the ten queues are
well-formed and share out the live jobs; the next step keeps them so exactly when
it is clean too. -/
theorem queues_correct_iff (threads : Nat → Thread) (machine : Machine) (run : CleanRun (boot threads) machine) :
    Correct machine ∧ ∀ event next, perform machine event = some next → (Correct next ↔ Clean machine event) := by
  have sound := run_sound run
  refine ⟨sound_correct sound, ?_⟩
  intro event next ran
  refine ⟨?_, fun clean => sound_correct (perform_sound sound clean ran)⟩
  intro correct
  cases event with
  | schedule => exact schedule_clean sound ran correct
  | _ => trivial

/-- Of three threads the first runs, ends and is removed; two are left. -/
theorem queues_correct_exit : ∃ machine, CleanRun (boot fun _ => ⟨.ready, .user⟩) machine ∧
    machine.removed = [0] ∧ machine.sched.queues 0 = ⟨some 1, some 2, 50, false⟩ ∧ Correct machine := by
  have created : CleanRun (boot fun _ => ⟨.ready, .user⟩) _ := .step .refl (.newJob 0) trivial rfl
  have created := created.step (.newJob 1) trivial rfl
  have created := created.step (.newJob 2) trivial rfl
  have selected := created.step .schedule (by rintro _ ⟨⟩) rfl
  have ended := selected.step .exit trivial rfl
  have run := ended.step .schedule (by rintro job ⟨⟩ living; exact absurd rfl living) rfl
  exact ⟨_, run, rfl, by decide, (queues_correct_iff _ _ run).1⟩

/-- Two user threads; the first runs past its allotment and is demoted while the
second waits in the first queue. -/
def demotionEvents : List Event :=
  [.newJob 0, .newJob 1, .schedule] ++ List.replicate 26 .time ++ [.schedule]

theorem demotion_breaks_links : ∃ machine,
    demotionEvents.foldlM perform (boot fun _ => ⟨.ready, .user⟩) = some machine ∧
      (machine.sched.queues 1).head = some 0 ∧ (machine.sched.jobs 0).prev = some 1 ∧ ¬ Correct machine := by
  have ran : ((demotionEvents.foldlM perform (boot fun _ => ⟨.ready, .user⟩)).map fun machine =>
      ((machine.sched.queues 1).head, (machine.sched.jobs 0).prev)) = some (some 0, some 1) := by
    decide +kernel
  obtain ⟨machine, returned, observed⟩ := Option.map_eq_some_iff.mp ran
  simp only [Prod.mk.injEq] at observed
  obtain ⟨first, back⟩ := observed
  refine ⟨machine, returned, first, back, ?_⟩
  rintro ⟨orders, holds, _⟩
  have queue := holds 1 (by decide)
  have head := queue.head.symm.trans first
  have linked := queue.linked
  cases shape : orders 1 with
  | nil => rw [shape] at head; cases head
  | cons job rest =>
    rw [shape] at head linked
    cases head
    exact absurd (linked.1.symm.trans back) (by simp)

end LunaOS.SchedulerRuns
