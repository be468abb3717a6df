import LunaOS.JobScheduler
import LunaOS.LinkedQueue

/-! What the scheduler's link surgery does to one queue. Each queue is compared
with the list of jobs it is meant to hold; removing a job and adding one are
specified on those lists, for the queue they touch and for all others. -/
namespace LunaOS.SchedulerQueues
open Function JobScheduler LinkedQueue

def prevOf (sched : Scheduler) (job : Nat) : Option Nat := (sched.jobs job).prev
def nextOf (sched : Scheduler) (job : Nat) : Option Nat := (sched.jobs job).next

/-- Queue `priority` is the doubly linked list of exactly these jobs. -/
structure Holds (sched : Scheduler) (priority : Nat) (order : List Nat) : Prop where
  head : (sched.queues priority).head = order.head?
  tail : (sched.queues priority).tail = order.getLast?
  flag : (sched.queues priority).isEmpty = order.isEmpty
  linked : Linked (prevOf sched) (nextOf sched) none order none
  priority : ∀ job ∈ order, (sched.jobs job).priority = priority
  distinct : order.Nodup

/-- The fields of a job that say where it is queued. -/
def place (job : Job) : Nat × Option Nat × Option Nat := (job.priority, job.prev, job.next)

theorem holds_frame {before after : Scheduler} {priority : Nat} {order : List Nat}
    (queue : after.queues priority = before.queues priority)
    (same : ∀ job ∈ order, place (after.jobs job) = place (before.jobs job))
    (holds : Holds before priority order) : Holds after priority order where
  head := by rw [queue]; exact holds.head
  tail := by rw [queue]; exact holds.tail
  flag := by rw [queue]; exact holds.flag
  linked := by
    refine linked_frame ?_ holds.linked
    intro job member
    have kept := same job member
    simp only [place, Prod.mk.injEq] at kept
    exact kept.2
  priority := by
    intro job member
    have kept := same job member
    simp only [place, Prod.mk.injEq] at kept
    exact kept.1.trans (holds.priority job member)
  distinct := holds.distinct

/-- Jobs of different queues are different. -/
theorem holds_apart {sched : Scheduler} (first : Holds sched p order)
    (second : Holds sched q others) (differ : q ≠ p) (member : job ∈ order) : job ∉ others := by
  intro held
  exact differ ((second.priority job held).symm.trans (first.priority job member))

/-- Link surgery: jobs move between queues and nothing else changes. -/
structure Keeps (before after : Scheduler) : Prop where
  running : after.runningJob = before.runningJob
  created : after.created = before.created
  threads : after.threads = before.threads
  thread : ∀ job, (after.jobs job).thread = (before.jobs job).thread

theorem Keeps.refl (sched : Scheduler) : Keeps sched sched := ⟨rfl, rfl, rfl, fun _ => rfl⟩

theorem Keeps.trans (first : Keeps before middle) (second : Keeps middle after) : Keeps before after where
  running := second.running.trans first.running
  created := second.created.trans first.created
  threads := second.threads.trans first.threads
  thread job := (second.thread job).trans (first.thread job)

theorem Keeps.status (kept : Keeps before after) (job : Nat) : statusOf after job = statusOf before job := by
  rw [statusOf, statusOf, kept.thread, kept.threads]

section Frames
variable (sched : Scheduler)

theorem modifyQueue_keeps (priority : Nat) (change : JobsQueue → JobsQueue) :
    Keeps sched (modifyQueue sched priority change) := ⟨rfl, rfl, rfl, fun _ => rfl⟩

theorem modifyJob_self (job : Nat) (change : Job → Job) :
    (modifyJob sched job change).jobs job = change (sched.jobs job) :=
  update_self ..

theorem modifyJob_other (change : Job → Job) (differ : other ≠ job) :
    (modifyJob sched job change).jobs other = sched.jobs other :=
  update_of_ne differ ..

theorem modifyQueue_self (priority : Nat) (change : JobsQueue → JobsQueue) :
    (modifyQueue sched priority change).queues priority = change (sched.queues priority) :=
  update_self ..

theorem modifyQueue_other (change : JobsQueue → JobsQueue) (differ : other ≠ priority) :
    (modifyQueue sched priority change).queues other = sched.queues other :=
  update_of_ne differ ..

theorem modifyJob_keeps {change : Job → Job} (job : Nat) (same : ∀ record, (change record).thread = record.thread) :
    Keeps sched (modifyJob sched job change) := by
  refine ⟨rfl, rfl, rfl, ?_⟩
  intro other
  by_cases here : other = job
  · rw [here, modifyJob_self, same]
  · rw [modifyJob_other _ _ here]

theorem modifyJob_place {change : Job → Job} (job : Nat)
    (same : ∀ record, place (change record) = place record) (other : Nat) :
    place ((modifyJob sched job change).jobs other) = place (sched.jobs other) := by
  by_cases here : other = job
  · rw [here, modifyJob_self, same]
  · rw [modifyJob_other _ _ here]

end Frames

/-! ## Removing -/

section Remove
variable {sched : Scheduler} {job : Nat}

theorem unlinkForward_keeps : Keeps sched (unlinkForward sched job) := by
  simp only [unlinkForward]
  split
  · exact modifyJob_keeps _ _ fun _ => rfl
  · exact modifyQueue_keeps ..

theorem unlinkBackward_keeps : Keeps sched (unlinkBackward sched job) := by
  simp only [unlinkBackward]
  split
  · exact modifyJob_keeps _ _ fun _ => rfl
  · exact modifyQueue_keeps ..

theorem removeJob_keeps : Keeps sched (schedulerRemoveJob sched job) := by
  have both : Keeps sched (unlinkBackward (unlinkForward sched job) job) :=
    unlinkForward_keeps.trans unlinkBackward_keeps
  simp only [schedulerRemoveJob]
  split
  · exact both.trans (modifyQueue_keeps ..)
  · exact both

section Removal
variable (sched : Scheduler)

theorem unlinkForward_jobs (job other : Nat) : (unlinkForward sched job).jobs other = { sched.jobs other with
      next := assign (nextOf sched) (prevOf sched job) (nextOf sched job) other } := by
  simp only [unlinkForward]
  split
  · rename_i prev link
    rw [prevOf, link]
    by_cases here : other = prev
    · simp [here, modifyJob, assign, nextOf]
    · simp [here, modifyJob, assign, nextOf]
  · rename_i link
    rw [prevOf, link]
    rfl

theorem unlinkBackward_jobs (job other : Nat) : (unlinkBackward sched job).jobs other = { sched.jobs other with
      prev := assign (prevOf sched) (nextOf sched job) (prevOf sched job) other } := by
  simp only [unlinkBackward]
  split
  · rename_i next link
    rw [nextOf, link]
    by_cases here : other = next
    · simp [here, modifyJob, assign, prevOf]
    · simp [here, modifyJob, assign, prevOf]
  · rename_i link
    rw [nextOf, link]
    rfl

theorem unlinkForward_self (job : Nat) : (unlinkForward sched job).jobs job = sched.jobs job := by
  rw [unlinkForward_jobs]
  have same : assign (nextOf sched) (prevOf sched job) (nextOf sched job) job = nextOf sched job := by
    by_cases own : prevOf sched job = some job
    · simp [own, assign]
    · exact assign_other own
  rw [same]
  rfl

/-- Every job's record after a removal. -/
theorem removeJob_jobs (job other : Nat) : (schedulerRemoveJob sched job).jobs other = { sched.jobs other with
      prev := assign (prevOf sched) (nextOf sched job) (prevOf sched job) other
      next := assign (nextOf sched) (prevOf sched job) (nextOf sched job) other } := by
  have backward : prevOf (unlinkForward sched job) = prevOf sched := by
    funext node
    rw [prevOf, unlinkForward_jobs]
    rfl
  have forward : nextOf (unlinkForward sched job) job = nextOf sched job := by
    rw [nextOf, unlinkForward_self]
    rfl
  have unlinked : (schedulerRemoveJob sched job).jobs other =
      (unlinkBackward (unlinkForward sched job) job).jobs other := by
    simp only [schedulerRemoveJob]
    split <;> rfl
  rw [unlinked, unlinkBackward_jobs, backward, forward, unlinkForward_jobs]

theorem unlinkForward_queue (job : Nat) : (unlinkForward sched job).queues (sched.jobs job).priority =
      { sched.queues (sched.jobs job).priority with
        head := if prevOf sched job = none then nextOf sched job
          else (sched.queues (sched.jobs job).priority).head } := by
  simp only [unlinkForward]
  split
  · rename_i prev link
    rw [if_neg (by rw [prevOf, link]; simp)]
    rfl
  · rename_i link
    rw [modifyQueue_self, if_pos (show prevOf sched job = none from link)]
    rfl

theorem unlinkBackward_queue (job : Nat) : (unlinkBackward sched job).queues (sched.jobs job).priority =
      { sched.queues (sched.jobs job).priority with
        tail := if nextOf sched job = none then prevOf sched job
          else (sched.queues (sched.jobs job).priority).tail } := by
  simp only [unlinkBackward]
  split
  · rename_i next link
    rw [if_neg (by rw [nextOf, link]; simp)]
    rfl
  · rename_i link
    rw [modifyQueue_self, if_pos (show nextOf sched job = none from link)]
    rfl

/-- The queue of the job after a removal. -/
theorem removeJob_queue (job : Nat) : let queue := sched.queues (sched.jobs job).priority
    let head := if prevOf sched job = none then nextOf sched job else queue.head
    let tail := if nextOf sched job = none then prevOf sched job else queue.tail
    (schedulerRemoveJob sched job).queues (sched.jobs job).priority =
      { queue with head := head, tail := tail, isEmpty := if head = none then true else queue.isEmpty } := by
  intro queue head tail
  have unlinked : (unlinkBackward (unlinkForward sched job) job).queues
      (sched.jobs job).priority = { queue with head := head, tail := tail } := by
    have backward := unlinkBackward_queue (unlinkForward sched job) job
    simp only [prevOf, nextOf, unlinkForward_self, unlinkForward_queue] at backward
    exact backward
  simp only [schedulerRemoveJob]
  split
  · rename_i empty
    rw [unlinked] at empty
    rw [modifyQueue_self, unlinked, if_pos empty]
  · rename_i nonempty
    rw [unlinked] at nonempty
    rw [unlinked, if_neg nonempty]

theorem removeJob_other (job : Nat) (differ : priority ≠ (sched.jobs job).priority) :
    (schedulerRemoveJob sched job).queues priority = sched.queues priority := by
  have forward : (unlinkForward sched job).queues priority = sched.queues priority := by
    simp only [unlinkForward]
    split
    · rfl
    · exact modifyQueue_other _ _ differ
  have backward : (unlinkBackward (unlinkForward sched job) job).queues priority = sched.queues priority := by
    rw [← forward]
    simp only [unlinkBackward, unlinkForward_self]
    split
    · rfl
    · exact modifyQueue_other _ _ differ
  rw [← backward]
  simp only [schedulerRemoveJob]
  split
  · exact modifyQueue_other _ _ differ
  · rfl

end Removal

/-- Removing a job takes it out of its list. -/
theorem removeJob_holds {front back : List Nat} (holds : Holds sched priority (front ++ job :: back)) :
    Holds (schedulerRemoveJob sched job) priority (front ++ back) := by
  obtain ⟨backward, forward⟩ := linked_next holds.linked
  rw [Option.or_none] at backward forward
  have own := holds.priority job (by simp)
  have queue := removeJob_queue sched job
  simp only [own, backward, forward, holds.head, holds.tail, holds.flag] at queue
  refine ⟨?_, ?_, ?_, ?_, ?_, ?_⟩
  · rw [queue]
    cases front <;> simp
  · rw [queue]
    rcases List.eq_nil_or_concat back with rfl | ⟨rest, last, rfl⟩ <;> simp [List.getLast?_cons]
  · rw [queue]
    cases front <;> cases back <;> simp
  · refine linked_frame ?_ (linked_remove holds.distinct holds.linked)
    intro other _
    have record := removeJob_jobs sched job other
    exact ⟨congrArg Job.prev record, congrArg Job.next record⟩
  · intro other member
    rw [removeJob_jobs]
    exact holds.priority other (by
      rcases List.mem_append.mp member with early | late
      · simp [early]
      · simp [late])
  · exact holds.distinct.sublist ((List.sublist_cons_self job back).append_left front)

/-- Removing a job leaves every other queue alone. -/
theorem removeJob_apart {front back : List Nat}
    (holds : Holds sched priority (front ++ job :: back)) (other : Holds sched q order)
    (differ : q ≠ priority) : Holds (schedulerRemoveJob sched job) q order := by
  obtain ⟨backward, forward⟩ := linked_next holds.linked
  rw [Option.or_none] at backward forward
  have own := holds.priority job (by simp)
  refine holds_frame (removeJob_other _ _ (by rw [own]; exact differ)) ?_ other
  intro node member
  have foreign : node ∉ front ++ job :: back := holds_apart other holds differ.symm member
  rw [removeJob_jobs, assign_other, assign_other]
  · rfl
  · rw [backward]
    exact fun same => foreign (by simp [List.mem_of_getLast? same])
  · rw [forward]
    exact fun same => foreign (by simp [List.mem_of_mem_head? (by rw [same]; rfl)])

end Remove

/-! ## Adding -/

section Add
variable {sched : Scheduler} {job : Nat}

/-- Every job's record after an addition. -/
theorem addJob_jobs (sched : Scheduler) (job priority other : Nat) :
    (schedulerAddJob sched job priority).jobs other = { sched.jobs other with
      priority := if other = job then priority else (sched.jobs other).priority
      prev := update (prevOf sched) job (sched.queues 0).tail other
      next := assign (update (nextOf sched) job none) (sched.queues priority).tail
        (some job) other } := by
  simp only [schedulerAddJob, modifyQueue]
  split
  · rename_i last link
    rw [show (sched.queues priority).tail = some last from link]
    by_cases here : other = job <;> by_cases there : other = last
    · subst here there
      simp [modifyJob, assign]
    · have away : job ≠ last := here ▸ there
      simp [modifyJob, assign, here, away]
    · have away : last ≠ job := there ▸ here
      simp [modifyJob, assign, there, away, prevOf]
    · simp [modifyJob, assign, here, there, prevOf, nextOf]
  · rename_i link
    rw [show (sched.queues priority).tail = none from link]
    by_cases here : other = job
    · simp [modifyJob, assign, here]
    · simp [modifyJob, assign, here, prevOf, nextOf]

theorem addJob_keeps (sched : Scheduler) (job priority : Nat) : Keeps sched (schedulerAddJob sched job priority) := by
  refine ⟨?_, ?_, ?_, fun other => by rw [addJob_jobs]⟩ <;>
    (simp only [schedulerAddJob, modifyQueue]; split <;> rfl)

theorem addJob_queue (sched : Scheduler) (job priority : Nat) : (schedulerAddJob sched job priority).queues priority =
      { sched.queues priority with
        head := if (sched.queues priority).head = none then some job
          else (sched.queues priority).head
        tail := some job
        isEmpty := false } := by
  simp only [schedulerAddJob]
  rw [modifyQueue_self]
  split <;> rfl

theorem addJob_other (sched : Scheduler) (job : Nat) (differ : other ≠ priority) :
    (schedulerAddJob sched job priority).queues other = sched.queues other := by
  simp only [schedulerAddJob]
  rw [modifyQueue_other _ _ differ]
  split <;> rfl

/-- A job goes to the end of a queue whose tail is the tail of queue 0. -/
theorem addJob_holds (holds : Holds sched priority order) (fresh : job ∉ order)
    (tails : (sched.queues 0).tail = (sched.queues priority).tail) :
    Holds (schedulerAddJob sched job priority) priority (order ++ [job]) where
  head := by
    rw [addJob_queue, holds.head]
    cases order <;> simp
  tail := by
    rw [addJob_queue]
    simp
  flag := by
    rw [addJob_queue]
    simp
  linked := by
    refine linked_frame ?_ (linked_push holds.distinct fresh holds.linked)
    intro other _
    have record := addJob_jobs sched job priority other
    rw [tails, holds.tail] at record
    exact ⟨congrArg Job.prev record, congrArg Job.next record⟩
  priority := by
    intro other member
    rw [addJob_jobs]
    rcases List.mem_append.mp member with held | new
    · have differ : other ≠ job := fun same => fresh (same ▸ held)
      simpa [differ] using holds.priority other held
    · simp [List.mem_singleton.mp new]
  distinct := List.nodup_append.mpr ⟨holds.distinct, List.nodup_singleton job, by
    intro early member late same
    rw [List.mem_singleton.mp same]
    exact fun equal => fresh (equal ▸ member)⟩

/-- Adding a job leaves every other queue alone. -/
theorem addJob_apart (holds : Holds sched priority order) (other : Holds sched q others)
    (differ : q ≠ priority) (fresh : job ∉ others) : Holds (schedulerAddJob sched job priority) q others := by
  refine holds_frame (addJob_other _ _ differ) ?_ other
  intro node member
  have away : node ≠ job := fun same => fresh (same ▸ member)
  have foreign : (sched.queues priority).tail ≠ some node := by
    rw [holds.tail]
    exact fun same => holds_apart other holds differ.symm member (List.mem_of_getLast? same)
  rw [addJob_jobs, assign_other foreign]
  simp [place, away, prevOf, nextOf]

/-- In a queue other than the first the added job's back link is right only if
both queues were empty. -/
theorem addJob_empty {before lowest after : List Nat} (lower : Holds sched 0 lowest)
    (holds : Holds sched priority before) (fresh : job ∉ before) (target : priority ≠ 0)
    (still : Holds (schedulerAddJob sched job priority) 0 first)
    (added : Holds (schedulerAddJob sched job priority) priority after) : lowest = [] ∧ before = [] := by
  have last : after.getLast? = some job := by rw [← added.tail, addJob_queue]
  obtain ⟨front, shape⟩ := List.getLast?_eq_some_iff.mp last
  have link : front.getLast? = lowest.getLast? := by
    have linked := added.linked
    rw [shape] at linked
    have backward := (linked_next linked).1
    have record := congrArg Job.prev (addJob_jobs sched job priority job)
    rw [Option.or_none] at backward
    rw [← backward, ← lower.tail, prevOf]
    simpa using record
  have none : lowest.getLast? = none := by
    cases found : lowest.getLast? with
    | none => rfl
    | some node =>
      rw [found] at link
      have low : node ∈ first := by
        refine List.mem_of_getLast? ?_
        rw [← still.tail, addJob_other _ _ target.symm, lower.tail]
        exact found
      have high : node ∈ after := by rw [shape]; simp [List.mem_of_getLast? link]
      exact absurd low (holds_apart added still target.symm high)
  refine ⟨List.getLast?_eq_none_iff.mp none, ?_⟩
  cases before with
  | nil => rfl
  | cons node rest =>
    have alone : front = [] := List.getLast?_eq_none_iff.mp (link.trans none)
    have head := added.head
    rw [shape, alone, addJob_queue, holds.head] at head
    simp at head
    exact absurd (by simp [head]) fresh

end Add

end LunaOS.SchedulerQueues
