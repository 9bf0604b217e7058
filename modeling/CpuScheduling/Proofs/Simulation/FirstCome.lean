import CpuScheduling.Proofs.Simulation.Reprioritizing
import CpuScheduling.Proofs.Simulation.Unbroken
import CpuScheduling.Proofs.Simulation.UniformCriterion

/-!
First come, first served in closed form.  Those that wait stand in the order in which they have
come, so that each job starts once it has arrived and the one before it has completed.  Only
arrivals and services decide that: priorities show in the books and nowhere else.
-/

namespace CpuScheduling

/-- The second job starts once it has arrived and the first one has completed. -/
def Job.HandsOnTo (first second : Job) : Prop :=
  ∃ completion, first.completion = some completion ∧
    second.firstStart = some (max second.arrival completion)

/-- The jobs are served one after another, in the order of their arrivals and ids. -/
structure Schedule.ServedInTurn (schedule : Schedule) (order : List Job) : Prop where
  jobs : order.Perm schedule.jobs
  sorted : order.Pairwise Job.Earlier
  unbroken : ∀ job ∈ order, ∃ start, job.Unbroken schedule.trace start
  first : ∀ job, order.head? = some job → job.firstStart = some job.arrival
  next : order.IsChain Job.HandsOnTo
  completionOrder : schedule.completionOrder = order.map (·.id)

theorem Job.Earlier.asymm {first second : Job} (earlier : first.Earlier second) :
    ¬second.Earlier first := by
  unfold Job.Earlier at *
  omega

namespace Lineup

variable {scheduler : Scheduler} {come : Nat → List Task}

theorem joinAll_of_unranked (unranked : scheduler.isRanked = false) (tasks : List Task)
    (lineup : Lineup) :
    tasks.foldl (join scheduler) lineup = { lineup with waiting := lineup.waiting ++ tasks } := by
  induction tasks generalizing lineup with
  | nil => simp
  | cons first rest inductionHypothesis =>
      have behind : insertSorted scheduler.precedes first lineup.waiting =
          lineup.waiting ++ [first] :=
        insertSorted_of_not_precedes fun other _ => by simp [Scheduler.not_precedes unranked]
      rw [List.foldl_cons, inductionHypothesis, join, behind, List.append_assoc,
        List.singleton_append]

theorem waiting_gather_fcfs (lineup : Lineup) (tasks : List Task) :
    (lineup.gather .fcfs tasks).waiting = lineup.waiting ++ tasks := by
  rw [gather, requeue_of_goesOn fun _ _ => rfl, joinAll_of_unranked rfl]

theorem waiting_work_dispatch_fcfs (lineup : Lineup) :
    ((lineup.dispatch .fcfs).work .fcfs).waiting.Sublist lineup.waiting := by
  have spent (lineup : Lineup) : (lineup.work .fcfs).waiting = lineup.waiting := by
    unfold work
    split
    next => rfl
    next => split <;> simp [Scheduler.reorder]
  rw [spent]
  unfold dispatch
  split
  next => exact .refl _
  next front rest waiting =>
    split
    next =>
      rw [waiting]
      exact List.sublist_cons_self front rest
    next => exact .refl _

theorem pairwise_gather_fcfs (arrival : ∀ time, ∀ task ∈ come time, task.arrival = time)
    (order : ∀ time, (come time).Pairwise (·.id < ·.id)) (time : Nat) :
    ((before .fcfs come time).gather .fcfs (come time)).waiting.Pairwise
      fun first second => first.comesBefore second := by
  have together (time : Nat) : (come time).Pairwise fun first second =>
      first.comesBefore second := by
    refine (order time).imp_of_mem fun {first second} isFirst isSecond lower => ?_
    have same := (arrival time first isFirst).trans (arrival time second isSecond).symm
    simp [Task.comesBefore, same, lower.le]
  induction time with
  | zero => exact waiting_gather_fcfs {} (come 0) ▸ together 0
  | succ time inductionHypothesis =>
      rw [waiting_gather_fcfs, List.pairwise_append]
      refine ⟨inductionHypothesis.sublist (waiting_work_dispatch_fcfs _), together (time + 1), ?_⟩
      intro present waits newcomer comes
      have early := (arrived_before .fcfs arrival (time + 1)).waiting present waits
      have late := arrival (time + 1) newcomer comes
      simp [Task.comesBefore, late, early]

end Lineup

section Turns

variable {workload : List Spec} {config : Config} {schedule : Schedule} {first second job : Job}
  {start later time : Nat} (ran : simulate workload config .fcfs = .ok schedule)

include ran

theorem selects_earlier_of_simulate : schedule.Selects Job.Earlier := by
  refine selects_of_simulate rfl rfl ran
    (Lineup.pairwise_gather_fcfs (arrival_tasksAt workload) (order_tasksAt workload)) ?_
  intro first second task other isFirst isSecond different stands
  simp only [Task.comesBefore_iff, isFirst.id, isFirst.arrival, isSecond.id, isSecond.arrival]
    at stands
  unfold Job.Earlier
  omega

/-- Whoever has come earlier has completed before the other one starts. -/
theorem end_le_start_of_earlier (isFirst : first ∈ schedule.jobs) (isSecond : second ∈ schedule.jobs)
    (earlier : first.Earlier second) (served : first.Unbroken schedule.trace start)
    (alsoServed : second.Unbroken schedule.trace later) : start + first.service ≤ later := by
  have different : first.id ≠ second.id := by
    intro same
    cases eq_of_id_of_simulate ran isFirst isSecond same
    exact earlier.asymm earlier
  refine served.le_start alsoServed different ?_
  by_contra overtaken
  have arrived := alsoServed.arrived
  have inFront := (selects_earlier_of_simulate ran).before isSecond isFirst different alsoServed
    served (by unfold Job.Earlier at earlier; omega) (by omega)
  exact earlier.asymm inFront

theorem exists_earlier_of_waiting (isJob : job ∈ schedule.jobs)
    (served : job.Unbroken schedule.trace start) (arrived : job.arrival ≤ time)
    (waits : time < start) : ∃ earlier ∈ schedule.jobs, earlier.Earlier job ∧
      ∃ begun, earlier.Unbroken schedule.trace begun ∧ time < begun + earlier.service := by
  have serving := serving_of_simulate ran
  have idle : occupantAt schedule.trace time ≠ some job.id := fun holds => by
    have begun := ((served.holds time).mp holds).1
    omega
  cases occupied : occupantAt schedule.trace time with
  | none =>
      obtain ⟨submitted, isSubmitted, rfl⟩ := (mem_jobs_of_simulate ran).mp isJob
      have done := serving.rests time occupied submitted isSubmitted arrived
      have isFirst : (heldTicks schedule.trace submitted.id).head? = some start := served.firstStart
      have untouched := serving.chronological.leftBefore_eq isFirst waits.le
      have positive : 0 < submitted.service := served.positive
      omega
  | some id =>
      obtain ⟨holder, submitted, rfl, _⟩ := serving.occupied time id occupied
      obtain ⟨begun, holds⟩ := exists_unbroken rfl rfl ran submitted
      have isHolder := (mem_jobs_of_simulate ran).mpr ⟨holder, submitted, rfl⟩
      have within := (holds.holds time).mp occupied
      refine ⟨_, isHolder, ?_, begun, holds, within.2⟩
      by_contra notEarlier
      have different : holder.id ≠ job.id := fun same => idle (occupied.trans (congrArg some same))
      have later : job.Earlier (holder.closed (heldTicks schedule.trace holder.id)) := by
        have sameId : (holder.closed (heldTicks schedule.trace holder.id)).id = holder.id := rfl
        unfold Job.Earlier at *
        omega
      have inTurn := end_le_start_of_earlier ran isJob isHolder later served holds
      omega

/-- A job starts when it can, that is once it has arrived and all that have come earlier have
completed. -/
theorem start_eq_of_free {free : Nat} (isJob : job ∈ schedule.jobs)
    (served : job.Unbroken schedule.trace start) (arrived : job.arrival ≤ free)
    (notEarlier : free ≤ start)
    (done : ∀ earlier ∈ schedule.jobs, earlier.Earlier job →
      ∀ begun, earlier.Unbroken schedule.trace begun → begun + earlier.service ≤ free) :
    start = free := by
  by_contra other
  obtain ⟨earlier, isEarlier, before, begun, alsoServed, holds⟩ :=
    exists_earlier_of_waiting ran isJob served arrived (by omega)
  have ended := done earlier isEarlier before begun alsoServed
  omega

theorem exists_order_of_simulate :
    ∃ order : List Job, order.Perm schedule.jobs ∧ order.Pairwise Job.Earlier := by
  have perm := sortByInsertion_perm Simulation.arrivesBefore schedule.jobs
  have sorted := pairwise_sortByInsertion arrivesBefore_total arrivesBefore_trans schedule.jobs
  have nodup := (perm.map Job.id).nodup_iff.mpr (nodup_ids_of_simulate ran)
  have distinct := List.pairwise_map.mp nodup
  refine ⟨_, perm, (sorted.and distinct).imp fun ⟨before, different⟩ => ?_⟩
  rw [arrivesBefore_iff] at before
  unfold Job.Earlier
  omega

section Order

variable {order : List Job} (perm : order.Perm schedule.jobs) (sorted : order.Pairwise Job.Earlier)

include perm sorted

theorem firstStart_of_head? (isHead : order.head? = some job) : job.firstStart = some job.arrival := by
  obtain ⟨late, rfl⟩ := List.head?_eq_some_iff.mp isHead
  have isJob := perm.mem_iff.mp List.mem_cons_self
  obtain ⟨start, served⟩ := (selects_earlier_of_simulate ran).exists_unbroken isJob
  have atOnce : start = job.arrival := by
    refine start_eq_of_free ran isJob served le_rfl served.arrived fun other isOther before => ?_
    rcases List.mem_cons.mp (perm.mem_iff.mpr isOther) with rfl | isLate
    · exact absurd before before.asymm
    · exact absurd before ((List.pairwise_cons.mp sorted).1 other isLate).asymm
  rw [served.firstStart, atOnce]

theorem handsOnTo_of_split {early late : List Job}
    (split : order = early ++ first :: second :: late) : first.HandsOnTo second := by
  subst split
  obtain ⟨_, others, fromEarly⟩ := List.pairwise_append.mp sorted
  obtain ⟨fromFirst, rest⟩ := List.pairwise_cons.mp others
  have isFirst : first ∈ schedule.jobs := perm.mem_iff.mp (by simp)
  have isSecond : second ∈ schedule.jobs := perm.mem_iff.mp (by simp)
  have selects := selects_earlier_of_simulate ran
  obtain ⟨start, served⟩ := selects.exists_unbroken isFirst
  obtain ⟨later, alsoServed⟩ := selects.exists_unbroken isSecond
  have inTurn := end_le_start_of_earlier ran isFirst isSecond (fromFirst second (by simp)) served
    alsoServed
  refine ⟨start + first.service, served.completion, ?_⟩
  have next : later = max second.arrival (start + first.service) := by
    refine start_eq_of_free ran isSecond alsoServed (le_max_left _ _)
      (max_le alsoServed.arrived inTurn) fun other isOther before begun runs => ?_
    refine le_max_of_le_right ?_
    rcases List.mem_append.mp (perm.mem_iff.mpr isOther) with isEarly | notEarly
    · have done := end_le_start_of_earlier ran isOther isFirst (fromEarly other isEarly first
        (by simp)) runs served
      omega
    rcases List.mem_cons.mp notEarly with rfl | notFirst
    · rw [runs.start_eq served]
    rcases List.mem_cons.mp notFirst with rfl | isLate
    · exact absurd before before.asymm
    · exact absurd before ((List.pairwise_cons.mp rest).1 other isLate).asymm
  rw [alsoServed.firstStart, next]

theorem completionOrder_of_sorted : schedule.completionOrder = order.map (·.id) := by
  have selects := selects_earlier_of_simulate ran
  have inTurn : order.Pairwise fun first second => ∃ early late,
      first.completion = some early ∧ second.completion = some late ∧ early < late := by
    refine sorted.imp_of_mem fun {first second} isFirst isSecond earlier => ?_
    have isJob := perm.mem_iff.mp isFirst
    have alsoJob := perm.mem_iff.mp isSecond
    obtain ⟨start, served⟩ := selects.exists_unbroken isJob
    obtain ⟨later, alsoServed⟩ := selects.exists_unbroken alsoJob
    have before := end_le_start_of_earlier ran isJob alsoJob earlier served alsoServed
    have positive := alsoServed.positive
    exact ⟨_, _, served.completion, alsoServed.completion, by omega⟩
  have listed := Schedule.pairwise_completion (chronological_of_simulate ran).1
    (fun job isJob => by
      obtain ⟨start, completion, waiting, traced, _⟩ := (traced_of_simulate ran).2 job isJob
      exact ⟨start, completion, waiting, traced⟩)
    (nodup_ids_of_simulate ran)
  have same := (sortByInsertion_perm Schedule.completesBefore schedule.jobs).trans perm.symm
  rw [Schedule.completionOrder, same.eq_of_pairwise ?_ listed inTurn]
  rintro first second _ _ ⟨early, late, isEarly, isLate, before⟩ ⟨_, _, alsoLate, alsoEarly, after⟩
  cases isEarly.symm.trans alsoEarly
  cases isLate.symm.trans alsoLate
  omega

end Order

end Turns

section Priorities

def Spec.unprioritized (spec : Spec) : Spec :=
  { spec with priority := 0 }

def Job.unprioritized (job : Job) : Job :=
  { job with priority := 0, effectivePriority := 0 }

def Schedule.unprioritized (schedule : Schedule) : Schedule :=
  { schedule with jobs := schedule.jobs.map Job.unprioritized }

variable {workload other : List Spec} {config otherConfig : Config} {schedule : Schedule}

theorem makespan_unprioritized (workload : List Spec) :
    makespan (workload.map Spec.unprioritized) = makespan workload :=
  makespan_reprioritized (fun _ => 0) workload

theorem validate_unprioritized (workload : List Spec) :
    validate (workload.map Spec.unprioritized) = validate workload :=
  validate_reprioritized (fun _ => 0) workload

/-- What is left of a schedule without its priorities is what a workload without them yields. -/
theorem eq_unprioritized_of_simulate {plain : Schedule}
    (ran : simulate workload config .fcfs = .ok schedule)
    (plainRan : simulate (workload.map Spec.unprioritized) otherConfig .fcfs = .ok plain) :
    plain = schedule.unprioritized := by
  have accepts : Policy.Accepts .fcfs config workload fun _ => 0 := trivial
  exact eq_reprioritized_of_simulate rfl rfl (reprioritizes_of_accepts rfl accepts) ran plainRan

/-- Where only priorities differ, a request has the same outcome but for these: to forget them is to
map them all to the same one, which this policy accepts. -/
theorem exists_same_unprioritized (ran : simulate workload config .fcfs = .ok schedule)
    (alike : other.map Spec.unprioritized = workload.map Spec.unprioritized)
    (limit : otherConfig.maxTicks = config.maxTicks) :
    ∃ otherSchedule, simulate other otherConfig .fcfs = .ok otherSchedule ∧
      otherSchedule.unprioritized = schedule.unprioritized := by
  obtain ⟨valid, positive, _, inTime⟩ := exists_ok_iff.mp ⟨schedule, ran⟩
  obtain ⟨plain, plainRan⟩ :
      ∃ plain, simulate (workload.map Spec.unprioritized) config .fcfs = .ok plain := by
    refine exists_ok_iff.mpr ⟨(validate_unprioritized workload).trans valid, positive, nofun, ?_⟩
    rwa [makespan_unprioritized]
  obtain ⟨otherSchedule, otherRan⟩ :
      ∃ otherSchedule, simulate other otherConfig .fcfs = .ok otherSchedule := by
    refine exists_ok_iff.mpr ⟨?_, limit.symm ▸ positive, nofun, ?_⟩
    · rw [← validate_unprioritized, alike, validate_unprioritized, valid]
    · rwa [← makespan_unprioritized, alike, makespan_unprioritized, limit]
  refine ⟨otherSchedule, otherRan, ?_⟩
  rw [← eq_unprioritized_of_simulate ran plainRan]
  exact (eq_unprioritized_of_simulate otherRan (alike ▸ plainRan)).symm

end Priorities

variable {workload : List Spec} {config : Config} {schedule : Schedule}

/-- First come, first served runs the jobs one after another by arrival and id, each from the time
at which it has arrived and the one before it has completed.  Neither priorities nor the settings
of other policies change anything. -/
theorem simulate_fcfs_in_turn (ran : simulate workload config .fcfs = .ok schedule) :
    (∃ order, schedule.ServedInTurn order) ∧
      ∀ (other : List Spec) (otherConfig : Config),
        other.map Spec.unprioritized = workload.map Spec.unprioritized →
        otherConfig.maxTicks = config.maxTicks →
        ∃ otherSchedule, simulate other otherConfig .fcfs = .ok otherSchedule ∧
          otherSchedule.unprioritized = schedule.unprioritized := by
  refine ⟨?_, fun other otherConfig => exists_same_unprioritized ran⟩
  obtain ⟨order, perm, sorted⟩ := exists_order_of_simulate ran
  refine ⟨order, perm, sorted, fun job isJob => ?_, fun job => firstStart_of_head? ran perm sorted,
    ?_, completionOrder_of_sorted ran perm sorted⟩
  · exact (selects_earlier_of_simulate ran).exists_unbroken (perm.mem_iff.mp isJob)
  · refine List.isChain_iff_forall_rel_of_append_cons_cons.mpr fun first second early late split => ?_
    exact handsOnTo_of_split ran perm sorted split

/-- The job that comes first is submitted second; two jobs arrive together, and the CPU rests before
the last one.  Other priorities, a quantum and an increment make no difference. -/
theorem simulate_fcfs_in_turn_with_gap :
    ∃ schedule other,
      simulate [⟨2, 2, 5⟩, ⟨0, 1, 0⟩, ⟨2, 1, 9⟩, ⟨7, 1, 0⟩] {} .fcfs = .ok schedule ∧
      simulate [⟨2, 2, 0⟩, ⟨0, 1, 8⟩, ⟨2, 1, 9⟩, ⟨7, 1, 3⟩]
        { quantum := some 1, agingIncrement := some 4 } .fcfs = .ok other ∧
      schedule.timeline = [some 2, none, some 1, some 1, some 3, none, none, some 4] ∧
      (∃ order, schedule.ServedInTurn order) ∧ other.unprioritized = schedule.unprioritized := by
  have runs : (simulate [⟨2, 2, 5⟩, ⟨0, 1, 0⟩, ⟨2, 1, 9⟩, ⟨7, 1, 0⟩] {} .fcfs).toOption.map
      Schedule.timeline = some [some 2, none, some 1, some 1, some 3, none, none, some 4] := by
    decide +kernel
  obtain ⟨schedule, ran, timeline⟩ := exists_of_timeline runs
  obtain ⟨inTurn, same⟩ := simulate_fcfs_in_turn ran
  obtain ⟨other, otherRan, alike⟩ := same [⟨2, 2, 0⟩, ⟨0, 1, 8⟩, ⟨2, 1, 9⟩, ⟨7, 1, 3⟩]
    { quantum := some 1, agingIncrement := some 4 } (by decide) rfl
  exact ⟨schedule, other, ran, otherRan, timeline, inTurn, alike⟩

end CpuScheduling
