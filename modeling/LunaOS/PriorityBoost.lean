import LunaOS.SchedulerRuns

/-! What one priority boost reaches. The walk along a queue reads the next job after the
current one may have gone to the first queue, where its link is cleared: a walk ends with
the first job it moves, and the last queue is not walked at all. -/
namespace LunaOS.PriorityBoost
open JobScheduler SchedulerQueues SchedulerRuns BoundedLoop

def timeOf (sched : Scheduler) (job : Nat) : BitVec 64 := (sched.jobs job).timeInPriority

/-- The boost leaves the job in its queue. -/
def stays (running : Option Nat) (priority job : Nat) : Bool := priority == 0 || running == some job

/-- The job the walk along a queue moves. -/
def moved (running : Option Nat) (priority : Nat) (order : List Nat) : Option Nat :=
  order.find? fun job => !stays running priority job

/-- The jobs the walk visits. -/
def visited (running : Option Nat) (priority : Nat) : List Nat → List Nat
  | [] => []
  | job :: rest => job :: if stays running priority job then visited running priority rest else []

/-- What the walk leaves of the queue. -/
def remaining (running : Option Nat) (priority : Nat) (order : List Nat) : List Nat :=
  match moved running priority order with
  | none => order
  | some job => order.erase job

/-- The queues after the walk along one of them. -/
def afterWalk (running : Option Nat) (orders : Nat → List Nat) (priority : Nat) : Nat → List Nat :=
  Function.update (Function.update orders priority (remaining running priority (orders priority))) 0
    (orders 0 ++ (moved running priority (orders priority)).toList)

theorem moved_first (running : Option Nat) (order : List Nat) : moved running 0 order = none := by
  simp [moved, stays]

theorem moved_visited {order : List Nat} (found : moved running priority order = some job) :
    job ∈ visited running priority order := by
  induction order with
  | nil => cases found
  | cons first rest ih =>
    unfold moved at found ih
    rw [List.find?_cons] at found
    unfold visited
    cases stay : stays running priority first with
    | true =>
      rw [stay] at found
      exact List.mem_cons_of_mem _ (ih found)
    | false =>
      rw [stay] at found
      cases found
      exact List.mem_cons_self

section Walk
variable {sched : Scheduler} {alive : Nat → Prop} {orders : Nat → List Nat}

theorem arranged_congr {others : Nat → List Nat} (arranged : Arranged sched alive orders)
    (same : ∀ priority < schedulerQueues, others priority = orders priority) : Arranged sched alive others where
  queue priority bound := by
    rw [same priority bound]
    exact arranged.queue priority bound
  member job := by
    rw [arranged.member]
    constructor
    · rintro ⟨priority, bound, held⟩
      exact ⟨priority, bound, by rwa [same priority bound]⟩
    · rintro ⟨priority, bound, held⟩
      exact ⟨priority, bound, by rwa [← same priority bound]⟩

/-- A queued job is in no other queue. -/
theorem arranged_apart (arranged : Arranged sched alive orders) (first : p < schedulerQueues)
    (second : q < schedulerQueues) (differ : q ≠ p) (held : job ∈ orders p) : job ∉ orders q :=
  holds_apart (arranged.queue p first) (arranged.queue q second) differ held

/-- What a walk along a queue has done to the scheduler. -/
structure Walked (alive : Nat → Prop) (orders : Nat → List Nat) (seen : List Nat) (before after : Scheduler) :
    Prop where
  arranged : Arranged after alive orders
  running : after.runningJob = before.runningJob
  created : after.created = before.created
  times : ∀ job, timeOf after job = if job ∈ seen then 0 else timeOf before job

def reset (sched : Scheduler) (job : Nat) : Scheduler :=
  modifyJob sched job fun boosted => { boosted with timeInPriority := 0 }

theorem reset_walked (arranged : Arranged sched alive orders) (job : Nat) :
    Walked alive orders [job] sched (reset sched job) where
  arranged := arranged_frame arranged rfl (modifyJob_place _ _ fun _ => rfl)
  running := rfl
  created := rfl
  times other := by
    unfold timeOf reset
    by_cases here : other = job
    · rw [here, modifyJob_self, if_pos (List.mem_singleton_self job)]
    · rw [modifyJob_other _ _ here, if_neg (by simpa using here)]

theorem moved_time (sched : Scheduler) (job priority other : Nat) :
    timeOf (schedulerAddJob (schedulerRemoveJob sched job) job priority) other = timeOf sched other := by
  unfold timeOf
  rw [addJob_jobs, removeJob_jobs]

theorem boostTurn_stays (arranged : Arranged sched alive orders) (bound : priority < schedulerQueues)
    (shape : orders priority = front ++ job :: back) (stay : stays sched.runningJob priority job = true) :
    boostTurn priority (sched, some job) = .again (reset sched job, back.head?) := by
  have forward := arranged_following (reset_walked arranged job).arranged bound shape
  have kept : ¬ (priority ≠ 0 ∧ (reset sched job).runningJob ≠ some job) := by
    simp only [stays, Bool.or_eq_true, beq_iff_eq] at stay
    rintro ⟨lower, other⟩
    rcases stay with first | running
    · exact lower first
    · exact other running
  simp only [boostTurn]
  rw [if_neg (by exact kept)]
  exact congrArg (fun next => Turn.again (reset sched job, next)) forward

theorem boostTurn_moves (arranged : Arranged sched alive orders) (live : alive job)
    (goes : stays sched.runningJob priority job = false) : boostTurn priority (sched, some job) =
      .again (schedulerAddJob (schedulerRemoveJob (reset sched job) job) job 0, none) := by
  have ends := moved_last (reset_walked arranged job).arranged live
  have leaves : priority ≠ 0 ∧ sched.runningJob ≠ some job := by simpa [stays] using goes
  simp only [boostTurn]
  rw [if_pos (by exact leaves)]
  exact congrArg (fun next => Turn.again (_, next)) ends

theorem Walked.trans (first : Walked alive middles seen before middle) (second : Walked alive orders others middle after)
    (all : ∀ job, job ∈ both ↔ job ∈ seen ∨ job ∈ others) : Walked alive orders both before after where
  arranged := second.arranged
  running := second.running.trans first.running
  created := second.created.trans first.created
  times job := by
    rw [second.times, first.times]
    by_cases early : job ∈ seen <;> by_cases late : job ∈ others <;> simp [all, early, late]

/-- The queues after a job of one of them went to the end of the first. -/
def afterMove (orders : Nat → List Nat) : Option Nat → Nat → List Nat
  | none => orders
  | some job => Function.update (fun q => (orders q).erase job) 0 ((orders 0).erase job ++ [job])

section Walks
variable (arranged : Arranged sched alive orders)
include arranged

theorem move_walked (live : alive job) : Walked alive (afterMove orders (some job)) [job] sched
      (schedulerAddJob (schedulerRemoveJob (reset sched job) job) job 0) := by
  have once := reset_walked arranged job
  have links : Keeps (reset sched job) (schedulerAddJob (schedulerRemoveJob (reset sched job) job) job 0) :=
    removeJob_keeps.trans (addJob_keeps ..)
  refine ⟨?_, links.running.trans once.running, links.created.trans once.created, fun other => ?_⟩
  · exact arranged_move once.arranged live rfl (fun _ => rfl) (by decide) rfl
  · rw [moved_time, once.times]

/-- By induction over the jobs ahead: each is visited, and the first that does not stay
ends the walk. -/
theorem walk_spec {back : List Nat} (bound : priority < schedulerQueues)
    (shape : orders priority = front ++ back) (fuel : back.length < turns) :
    ∃ after, iterate (boostTurn priority) turns (sched, back.head?) = some after ∧
      Walked alive (afterMove orders (moved sched.runningJob priority back))
        (visited sched.runningJob priority back) sched after := by
  induction back generalizing sched front turns with
  | nil => exact ⟨sched, iterate_leave rfl fuel, arranged, rfl, rfl, by simp [visited]⟩
  | cons job back ih =>
    obtain ⟨rest, rfl⟩ : ∃ rest, turns = rest + 1 := ⟨turns - 1, by omega⟩
    have once := reset_walked arranged job
    rw [List.length_cons] at fuel
    unfold visited moved
    rw [List.find?_cons, List.head?_cons]
    cases stay : stays sched.runningJob priority job with
    | true =>
      have onward : orders priority = (front ++ [job]) ++ back := by simpa using shape
      obtain ⟨after, ran, walked⟩ := ih once.arranged onward (show back.length < rest by omega)
      rw [once.running] at walked
      refine ⟨after, ?_, once.trans walked (by simp)⟩
      rw [iterate_again (boostTurn_stays arranged bound shape stay)]
      exact ran
    | false =>
      have live : alive job := (arranged.member job).mpr ⟨priority, bound, by rw [shape]; simp⟩
      refine ⟨_, ?_, move_walked arranged live⟩
      rw [iterate_again (boostTurn_moves arranged live stay)]
      exact iterate_leave rfl (by omega)

theorem afterMove_eq (bound : priority < schedulerQueues) (inside : q < schedulerQueues) :
    afterWalk running orders priority q = afterMove orders (moved running priority (orders priority)) q := by
  unfold afterWalk remaining
  cases found : moved running priority (orders priority) with
  | none =>
    by_cases first : q = 0
    · simp [first, afterMove]
    · simp [first, afterMove]
  | some job =>
    have lower : priority ≠ 0 := by
      rintro rfl
      rw [moved_first] at found
      cases found
    have held : job ∈ orders priority := List.mem_of_find?_eq_some found
    have absent : q ≠ priority → job ∉ orders q := fun differ => arranged_apart arranged bound inside differ held
    have above : job ∉ orders 0 := arranged_apart arranged bound (by decide) lower.symm held
    unfold afterMove
    by_cases first : q = 0
    · simp [first, List.erase_of_not_mem above]
    · by_cases here : q = priority
      · simp [here, lower]
      · simp [first, here, List.erase_of_not_mem (absent here)]

theorem boostQueue_spec (made : ∀ job, alive job → job < sched.created) (bound : priority < schedulerQueues) :
    ∃ after, boostQueue sched priority = some after ∧ Walked alive (afterWalk sched.runningJob orders priority)
        (visited sched.runningJob priority (orders priority)) sched after := by
  obtain ⟨after, ran, walked⟩ := walk_spec arranged bound (show orders priority = [] ++ orders priority from rfl)
    (Nat.lt_succ_of_le (arranged_short arranged made bound))
  refine ⟨after, ?_, ?_, walked.running, walked.created, walked.times⟩
  · rw [boostQueue, (arranged.queue priority bound).head]
    exact ran
  · exact arranged_congr walked.arranged fun q inside => afterMove_eq arranged bound inside

end Walks

end Walk

/-! ## All queues -/

theorem afterWalk_other (lower : q ≠ 0) (differ : q ≠ priority) : afterWalk running orders priority q = orders q := by
  simp [afterWalk, lower, differ]

/-- The queues after walks along several of them, the first not among them. -/
def afterWalks (running : Option Nat) (orders : Nat → List Nat) (priorities : List Nat) (q : Nat) : List Nat :=
  if q = 0 then orders 0 ++ priorities.flatMap fun priority => (moved running priority (orders priority)).toList
  else if q ∈ priorities then remaining running q (orders q) else orders q

def allVisited (running : Option Nat) (orders : Nat → List Nat) (priorities : List Nat) : List Nat :=
  priorities.flatMap fun priority => visited running priority (orders priority)

theorem afterWalks_cons (running : Option Nat) (orders : Nat → List Nat) {priorities : List Nat}
    (lower : ∀ p ∈ priority :: priorities, p ≠ 0)
    (fresh : priority ∉ priorities) (q : Nat) : afterWalks running (afterWalk running orders priority) priorities q =
        afterWalks running orders (priority :: priorities) q ∧
      allVisited running (afterWalk running orders priority) priorities = allVisited running orders priorities := by
  have same : ∀ p ∈ priorities, afterWalk running orders priority p = orders p := by
    intro p member
    exact afterWalk_other (lower p (List.mem_cons_of_mem _ member)) fun equal => fresh (equal ▸ member)
  have first := lower priority List.mem_cons_self
  constructor
  · unfold afterWalks
    by_cases zero : q = 0
    · rw [if_pos zero, if_pos zero, List.flatMap_cons, ← List.append_assoc,
        List.flatMap_congr (fun p member => by rw [same p member])]
      simp [afterWalk]
    · rw [if_neg zero, if_neg zero]
      by_cases here : q = priority
      · rw [here, if_neg fresh, if_pos List.mem_cons_self]
        simp [afterWalk, first]
      · rw [afterWalk_other zero here]
        simp [here]
  · exact List.flatMap_congr fun p member => by rw [same p member]

theorem boostQueues_spec {priorities : List Nat} {sched : Scheduler} (arranged : Arranged sched alive orders)
    (made : ∀ job, alive job → job < sched.created) (lower : ∀ p ∈ priorities, p ≠ 0)
    (bound : ∀ p ∈ priorities, p < schedulerQueues) (distinct : priorities.Nodup) :
    ∃ after, priorities.foldlM boostQueue sched = some after ∧
      Walked alive (afterWalks sched.runningJob orders priorities)
        (allVisited sched.runningJob orders priorities) sched after := by
  induction priorities generalizing sched orders with
  | nil =>
    refine ⟨sched, rfl, arranged_congr arranged fun q _ => ?_, rfl, rfl, by simp [allVisited]⟩
    simp +contextual [afterWalks]
  | cons priority rest ih =>
    obtain ⟨fresh, later⟩ := List.nodup_cons.mp distinct
    obtain ⟨middle, first, walked⟩ := boostQueue_spec arranged made (bound priority List.mem_cons_self)
    obtain ⟨after, onward, others⟩ := ih walked.arranged (by rw [walked.created]; exact made)
      (fun p member => lower p (List.mem_cons_of_mem _ member))
      (fun p member => bound p (List.mem_cons_of_mem _ member)) later
    have same := afterWalks_cons sched.runningJob orders lower fresh
    rw [walked.running, (same 0).2] at others
    refine ⟨after, ?_, ?_⟩
    · rw [List.foldlM_cons, first]
      exact onward
    · obtain ⟨settled, running, created, times⟩ := walked.trans others fun job => by
        show job ∈ allVisited sched.runningJob orders (priority :: rest) ↔ _
        rw [allVisited, List.flatMap_cons, List.mem_append]
        rfl
      exact ⟨arranged_congr settled fun q _ => ((same q).1).symm, running, created, times⟩

/-- The queues below the first that the boost walks along. -/
def walkedQueues : List Nat := [1, 2, 3, 4, 5, 6, 7, 8]

theorem priorityBoost_spec {sched : Scheduler} (arranged : Arranged sched alive orders)
    (made : ∀ job, alive job → job < sched.created) : ∃ after, schedulerPriorityBoost sched = some after ∧
      Walked alive (afterWalks sched.runningJob orders walkedQueues)
        (orders 0 ++ allVisited sched.runningJob orders walkedQueues) sched after := by
  obtain ⟨middle, first, walked⟩ := boostQueue_spec arranged made (show 0 < schedulerQueues by decide)
  have whole : ∀ order, visited sched.runningJob 0 order = order := by
    intro order
    induction order with
    | nil => rfl
    | cons job rest ih => simp [visited, stays, ih]
  have still : Arranged middle alive orders := by
    refine arranged_congr walked.arranged fun q _ => ?_
    simp [afterWalk, remaining, moved_first]
  obtain ⟨after, onward, others⟩ := boostQueues_spec still (by rw [walked.created]; exact made)
    (show ∀ p ∈ walkedQueues, p ≠ 0 by decide) (by decide) (by decide)
  rw [walked.running] at others
  refine ⟨after, ?_, walked.trans others fun job => ?_⟩
  · have shape : List.range (schedulerQueues - 1) = 0 :: walkedQueues := by decide
    rw [schedulerPriorityBoost, shape, List.foldlM_cons, first]
    exact onward
  · rw [whole, List.mem_append]

/-! ## What the boost is for -/

/-- After the boost every job but the running one is in the first queue, behind those that
were there, in their order, and every job starts with no time used. -/
def BoostsAll (sched : Scheduler) (alive : Nat → Prop) (orders : Nat → List Nat) : Prop :=
  ∃ after, schedulerPriorityBoost sched = some after ∧ ∃ boosted, Arranged after alive boosted ∧
    (∀ job, alive job → sched.runningJob ≠ some job → job ∈ boosted 0) ∧
    (∀ job, alive job → timeOf after job = 0) ∧ (orders 0).Sublist (boosted 0)

/-- No queue below the first holds two jobs other than the running one, the last holds
none, and the running job has no time used where the walks miss it. -/
structure Reached (sched : Scheduler) (orders : Nat → List Nat) : Prop where
  single : ∀ priority ∈ walkedQueues, ∀ first ∈ orders priority, ∀ second ∈ orders priority,
    sched.runningJob ≠ some first → sched.runningJob ≠ some second → first = second
  last : ∀ job ∈ orders 9, sched.runningJob = some job
  behind : ∀ priority ∈ walkedQueues, ∀ job ∈ orders priority, sched.runningJob = some job →
    (orders priority).head? ≠ some job → timeOf sched job = 0
  lowest : ∀ job ∈ orders 9, timeOf sched job = 0

section Boost
variable {sched : Scheduler} {alive : Nat → Prop} {orders : Nat → List Nat}

theorem walkedQueues_lower (walked : priority ∈ walkedQueues) : priority ≠ 0 ∧ priority < schedulerQueues := by
  revert walked
  unfold walkedQueues schedulerQueues
  simp only [List.mem_cons, List.not_mem_nil, or_false]
  omega

theorem queue_cases (bound : priority < schedulerQueues) : priority = 0 ∨ priority ∈ walkedQueues ∨ priority = 9 := by
  unfold schedulerQueues at bound
  unfold walkedQueues
  simp only [List.mem_cons, List.not_mem_nil, or_false]
  omega

theorem visited_subset (running : Option Nat) (priority : Nat) (order : List Nat) :
    visited running priority order ⊆ order := by
  induction order with
  | nil => exact fun _ member => member
  | cons first rest ih =>
    unfold visited
    split
    · exact List.cons_subset_cons first ih
    · simp

/-- A queued job is visited in its own queue or not at all. -/
theorem seen_iff (arranged : Arranged sched alive orders) (bound : priority < schedulerQueues)
    (held : job ∈ orders priority) : job ∈ orders 0 ++ allVisited sched.runningJob orders walkedQueues ↔
      priority = 0 ∨ priority ∈ walkedQueues ∧ job ∈ visited sched.runningJob priority (orders priority) := by
  have only : ∀ p < schedulerQueues, job ∈ orders p → p = priority := by
    intro p inside there
    by_contra differ
    exact arranged_apart arranged bound inside differ held there
  rw [List.mem_append]
  constructor
  · rintro (first | later)
    · exact .inl (only 0 (by decide) first).symm
    · obtain ⟨p, walked, seen⟩ := List.mem_flatMap.mp later
      cases only p (walkedQueues_lower walked).2 (visited_subset _ _ _ seen)
      exact .inr ⟨walked, seen⟩
  · rintro (rfl | ⟨walked, seen⟩)
    · exact .inl held
    · exact .inr (List.mem_flatMap.mpr ⟨priority, walked, seen⟩)

/-- A walked queue with a job other than the running one loses such a job. -/
theorem moved_some (walked : priority ∈ walkedQueues) (held : job ∈ order) (other : running ≠ some job) :
    ∃ found ∈ order, running ≠ some found ∧ moved running priority order = some found := by
  have lower := (walkedQueues_lower walked).1
  have goes : (order.find? fun job => !stays running priority job).isSome := by
    rw [List.find?_isSome]
    exact ⟨job, held, by simp [stays, lower, other]⟩
  obtain ⟨found, search⟩ := Option.isSome_iff_exists.mp goes
  have leaves := List.find?_some search
  exact ⟨found, List.mem_of_find?_eq_some search, by simpa [stays, lower] using leaves, search⟩

theorem Reached.moved (reached : Reached sched orders) (walked : priority ∈ walkedQueues)
    (held : job ∈ orders priority) (other : sched.runningJob ≠ some job) :
    moved sched.runningJob priority (orders priority) = some job := by
  obtain ⟨found, member, leaves, search⟩ := moved_some walked held other
  cases reached.single priority walked found member job held leaves other
  exact search

theorem Reached.boosts (reached : Reached sched orders) (arranged : Arranged sched alive orders)
    (made : ∀ job, alive job → job < sched.created) : BoostsAll sched alive orders := by
  obtain ⟨after, ran, walked⟩ := priorityBoost_spec arranged made
  refine ⟨after, ran, _, walked.arranged, ?_, ?_, ?_⟩
  · intro job live other
    obtain ⟨priority, bound, held⟩ := (arranged.member job).mp live
    simp only [afterWalks, if_true, List.mem_append, List.mem_flatMap, Option.mem_toList]
    rcases queue_cases bound with rfl | member | rfl
    · exact .inl held
    · exact .inr ⟨priority, member, reached.moved member held other⟩
    · exact absurd (reached.last job held) other
  · intro job live
    obtain ⟨priority, bound, held⟩ := (arranged.member job).mp live
    have seen := seen_iff arranged bound held
    rw [walked.times]
    split
    · rfl
    · rename_i missed
      rw [seen, not_or, not_and] at missed
      rcases queue_cases bound with rfl | member | rfl
      · exact absurd rfl missed.1
      · have passed := missed.2 member
        have running : sched.runningJob = some job := by
          by_contra other
          exact passed (moved_visited (reached.moved member held other))
        refine reached.behind priority member job held running fun first => passed ?_
        obtain ⟨rest, shape⟩ := List.head?_eq_some_iff.mp first
        rw [shape]
        exact List.mem_cons_self
      · exact reached.lowest job held
  · simp [afterWalks]

/-- A job behind one that moves is not visited. -/
theorem behind_missed (walked : priority ∈ walkedQueues) (held : job ∈ order)
    (running : current = some job) (behind : order.head? ≠ some job) : job ∉ visited current priority order := by
  cases order with
  | nil => cases held
  | cons first rest =>
    have differ : job ≠ first := fun same => behind (by rw [same]; rfl)
    have goes : stays current priority first = false := by
      simp [stays, (walkedQueues_lower walked).1, running, differ]
    simp [visited, goes, differ]

theorem BoostsAll.reached (boosts : BoostsAll sched alive orders) (arranged : Arranged sched alive orders)
    (made : ∀ job, alive job → job < sched.created) : Reached sched orders := by
  obtain ⟨after, ran, walked⟩ := priorityBoost_spec arranged made
  obtain ⟨other, same, boosted, settled, home, fresh, _⟩ := boosts
  cases ran.symm.trans same
  have alive_of : ∀ {p job}, p < schedulerQueues → job ∈ orders p → alive job :=
    fun bound held => (arranged.member _).mpr ⟨_, bound, held⟩
  have unmoved : ∀ {p job}, p < schedulerQueues → p ≠ 0 → job ∈ orders p → sched.runningJob ≠ some job →
      job ∉ afterWalks sched.runningJob orders walkedQueues p := by
    intro p job bound lower held other still
    have here := (walked.arranged.queue p bound).priority job still
    have there := (settled.queue 0 (by decide)).priority job (home job (alive_of bound held) other)
    exact lower (here.symm.trans there)
  have kept : ∀ {p job}, p < schedulerQueues → job ∈ orders p → p ≠ 0 →
      (p ∈ walkedQueues → job ∉ visited sched.runningJob p (orders p)) → timeOf sched job = 0 := by
    intro p job bound held lower missed
    have time := fresh job (alive_of bound held)
    rw [walked.times, if_neg] at time
    · exact time
    · rw [seen_iff arranged bound held, not_or, not_and]
      exact ⟨lower, missed⟩
  constructor
  · intro p member first held second too goes leaves
    obtain ⟨lower, bound⟩ := walkedQueues_lower member
    obtain ⟨found, _, _, search⟩ := moved_some member held goes
    have taken : ∀ job ∈ orders p, sched.runningJob ≠ some job → job = found := by
      intro job there other
      by_contra differ
      refine unmoved bound lower there other ?_
      rw [afterWalks, if_neg lower, if_pos member, remaining, search]
      exact (List.mem_erase_of_ne differ).mpr there
    rw [taken first held goes, taken second too leaves]
  · intro job held
    by_contra other
    exact unmoved (by decide) (by decide) held other held
  · intro p member job held running behind
    obtain ⟨lower, bound⟩ := walkedQueues_lower member
    exact kept bound held lower fun _ => behind_missed member held running behind
  · intro job held
    exact kept (by decide) held (by decide) fun member => absurd member (by decide)

end Boost

/-! ## Two jobs -/

/-- Jobs 0 and 1, in this order, in one queue. -/
def paired (priority : Nat) (first second : ThreadStatus) (running : Option Nat) : Scheduler where
  jobs job := if job = 0 then ⟨0, priority, 4, none, some 1⟩ else ⟨1, priority, 6, some 0, none⟩
  created := 2
  threads thread := ⟨if thread = 0 then first else second, .user⟩
  queues q := if q = priority then ⟨some 0, some 1, 50, false⟩ else ⟨none, none, 50, true⟩
  runningJob := running
  priorityBoostTime := 0

def pairedOrders (priority q : Nat) : List Nat := if q = priority then [0, 1] else []

theorem paired_arranged (first second : ThreadStatus) (running : Option Nat) (bound : priority < schedulerQueues) :
    Arranged (paired priority first second running) (· < 2) (pairedOrders priority) where
  queue q _ := by
    unfold pairedOrders
    split
    · rename_i here
      subst here
      exact ⟨by simp [paired], by simp [paired], by simp [paired], ⟨rfl, rfl, rfl, rfl, trivial⟩,
        by simp [paired], by decide⟩
    · rename_i away
      exact ⟨by simp [paired, away], by simp [paired, away], by simp [paired, away], trivial, by simp, List.nodup_nil⟩
  member job := by
    constructor
    · intro low
      refine ⟨priority, bound, ?_⟩
      simp only [pairedOrders, if_true, List.mem_cons, List.not_mem_nil, or_false]
      omega
    · rintro ⟨q, _, held⟩
      unfold pairedOrders at held
      split at held
      · simp only [List.mem_cons, List.not_mem_nil, or_false] at held
        omega
      · cases held

/-- The boost reaches everyone exactly in these states. -/
theorem boost_reaches_iff {sched : Scheduler} {alive : Nat → Prop} {orders : Nat → List Nat}
    (arranged : Arranged sched alive orders) (made : ∀ job, alive job → job < sched.created) :
    BoostsAll sched alive orders ↔ Reached sched orders :=
  ⟨fun boosts => boosts.reached arranged made, fun reached => reached.boosts arranged made⟩

/-- The first of two jobs runs: the walk passes it and moves the other. -/
theorem boost_reaches_iff_running : BoostsAll (paired 1 .ready .ready (some 0)) (· < 2) (pairedOrders 1) := by
  refine (boost_reaches_iff (paired_arranged .ready .ready (some 0) (by decide)) fun _ low => low).mpr
    ⟨?_, by decide, ?_, by decide⟩
  · intro priority _ first held second too goes leaves
    change some 0 ≠ some first at goes
    change some 0 ≠ some second at leaves
    unfold pairedOrders at held too
    split at held
    · rename_i here
      simp only [here, if_true, List.mem_cons, List.not_mem_nil, or_false] at held too
      simp only [ne_eq, Option.some.injEq] at goes leaves
      omega
    · cases held
  · intro priority _ job held running behind
    cases running
    unfold pairedOrders at held behind
    split at held <;> simp_all

/-- With neither running the first moves and the second stays, its time kept. -/
theorem second_job_not_boosted : ¬ BoostsAll (paired 1 .ready .ready none) (· < 2) (pairedOrders 1) ∧
    (schedulerPriorityBoost (paired 1 .ready .ready none)).map (fun after => ((after.jobs 1).priority, timeOf after 1)) =
      some (1, 6) := by
  refine ⟨fun boosts => ?_, by decide⟩
  have reached := boosts.reached (paired_arranged .ready .ready none (by decide)) fun _ low => low
  exact absurd (reached.single 1 (by decide) 0 (by decide) 1 (by decide) (by decide) (by decide)) (by decide)

/-! ## All events -/

/-- Over queues that are in order only `schedulerSchedule` can hang, waiting for a job that is
not ready. -/
theorem perform_returns (sound : Sound machine) (other : event ≠ .schedule) : (perform machine event).isSome := by
  have stable := sound_stable sound
  have boosts : ∀ sched, Stable machine.Alive machine.sched.runningJob machine.sched.created sched →
      (schedulerPriorityBoost sched).isSome := by
    rintro sched ⟨⟨orders, arranged⟩, _, created⟩
    obtain ⟨after, ran, _⟩ := priorityBoost_spec arranged fun job live => created ▸ live.1
    rw [ran]
    rfl
  cases event with
  | newJob thread => rfl
  | exit => rfl
  | schedule => exact absurd rfl other
  | priorityBoost => simpa [perform] using boosts _ stable
  | time =>
    simp only [perform, schedulerTime, Option.isSome_map]
    split
    · simpa using boosts _ (tick_stable stable)
    · rfl

/-- The boost walks a queue of two jobs and moves the first. -/
theorem perform_returns_paired : ∃ after, perform ⟨paired 3 .ready .ready none, []⟩ .priorityBoost = some after ∧
      (paired 3 .ready .ready none).queues 0 = ⟨none, none, 50, true⟩ ∧ (after.sched.queues 0).head = some 0 := by
  have sound : Sound ⟨paired 3 .ready .ready none, []⟩ := by
    refine ⟨⟨pairedOrders 3, ?_⟩, nofun, nofun⟩
    have arranged := paired_arranged .ready .ready none (show 3 < schedulerQueues by decide)
    refine ⟨arranged.queue, fun job => (and_iff_left List.not_mem_nil).trans (arranged.member job)⟩
  obtain ⟨after, ran⟩ := Option.isSome_iff_exists.mp (perform_returns sound (show Event.priorityBoost ≠ .schedule by decide))
  have head : ((perform ⟨paired 3 .ready .ready none, []⟩ .priorityBoost).map fun after =>
      (after.sched.queues 0).head) = some (some 0) := by decide
  rw [ran] at head
  exact ⟨after, ran, rfl, Option.some.inj head⟩

end LunaOS.PriorityBoost
