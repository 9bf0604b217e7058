import CpuScheduling.Proofs.Lineup.Live

/-!
Policies that never take the CPU away.  A job that has got the CPU keeps it until it has
completed, so its first start tells all its ticks; and whoever gets a free CPU stands in front
of all that wait, which are the jobs that have arrived and have not begun.
-/

namespace CpuScheduling

def Job.Earlier (first second : Job) : Prop :=
  first.arrival < second.arrival ∨ first.arrival = second.arrival ∧ first.id < second.id

/-- The job is served without a break: from its first start on it has the CPU in as many ticks
as it needs, and in no others. -/
structure Job.Unbroken (record : Array TraceEntry) (start : Nat) (job : Job) : Prop where
  positive : 0 < job.service
  arrived : job.arrival ≤ start
  firstStart : job.firstStart = some start
  completion : job.completion = some (start + job.service)
  holds : ∀ time,
    occupantAt record time = some job.id ↔ start ≤ time ∧ time < start + job.service

/-- Every job is served without a break, and those that have arrived by its first start but
start later come after it. -/
def Schedule.Selects (before : Job → Job → Prop) (schedule : Schedule) : Prop :=
  ∀ job ∈ schedule.jobs, ∃ start, job.Unbroken schedule.trace start ∧
    ∀ other ∈ schedule.jobs, other.id ≠ job.id → other.arrival ≤ start →
      ∀ later, other.firstStart = some later → start < later → before job other

structure Task.Unbegun (job : Job) (task : Task) : Prop where
  id : task.id = job.id
  arrival : task.arrival = job.arrival
  remaining : task.remaining = job.service
  priority : task.priority = job.priority

theorem Task.Unbegun.of_plain_eq {record : Array TraceEntry} {time : Nat} {job : Job} {task : Task}
    (isTask : task.plain = job.taskBefore record time)
    (untouched : job.leftBefore record time = job.service) : task.Unbegun job where
  id := congrArg Task.id isTask
  arrival := congrArg Task.arrival isTask
  remaining := (congrArg Task.remaining isTask).trans untouched
  priority := congrArg Task.priority isTask

theorem Task.Unbegun.closed {job : Job} {task : Task} (unbegun : task.Unbegun job)
    (held : List Nat) : task.Unbegun (job.closed held) :=
  ⟨unbegun.id, unbegun.arrival, unbegun.remaining, unbegun.priority⟩

theorem Chronological.leftBefore_eq {record : Array TraceEntry} (ordered : Chronological record)
    {job : Job} {first time : Nat} (isFirst : (heldTicks record job.id).head? = some first)
    (early : time ≤ first) : job.leftBefore record time = job.service := by
  have untouched : workedBefore record job.id time = 0 := by
    refine List.countP_eq_zero.mpr fun tick held => ?_
    have notEarlier := ordered.head_le_heldTicks isFirst tick held
    simp only [decide_eq_true_eq]
    omega
  rw [Job.leftBefore, untouched, Nat.sub_zero]

theorem Job.Unbroken.le_start {record : Array TraceEntry} {first second : Job} {start later : Nat}
    (served : first.Unbroken record start) (alsoServed : second.Unbroken record later)
    (different : first.id ≠ second.id) (after : start ≤ later) : start + first.service ≤ later := by
  have positive := alsoServed.positive
  by_contra overlapping
  have firstHolds := (served.holds later).mpr ⟨after, by omega⟩
  have secondHolds := (alsoServed.holds later).mpr ⟨le_rfl, by omega⟩
  exact different (Option.some.inj (firstHolds.symm.trans secondHolds))

theorem Job.Unbroken.end_le_size {record : Array TraceEntry} {job : Job} {start : Nat}
    (served : job.Unbroken record start) : start + job.service ≤ record.size := by
  have positive := served.positive
  have holds := (served.holds (start + job.service - 1)).mpr (by omega)
  have recorded := Chronological.lt_size_of_occupantAt holds
  omega

theorem Job.Unbroken.start_eq {record : Array TraceEntry} {job : Job} {start other : Nat}
    (served : job.Unbroken record start) (alsoServed : job.Unbroken record other) : start = other :=
  Option.some.inj (served.firstStart.symm.trans alsoServed.firstStart)

theorem Schedule.Selects.exists_unbroken {before : Job → Job → Prop} {schedule : Schedule}
    (selects : schedule.Selects before) {job : Job} (isJob : job ∈ schedule.jobs) :
    ∃ start, job.Unbroken schedule.trace start := by
  obtain ⟨start, served, _⟩ := selects job isJob
  exact ⟨start, served⟩

theorem Schedule.Selects.before {before : Job → Job → Prop} {schedule : Schedule}
    (selects : schedule.Selects before) {job other : Job} {start later : Nat}
    (isJob : job ∈ schedule.jobs) (isOther : other ∈ schedule.jobs) (different : other.id ≠ job.id)
    (served : job.Unbroken schedule.trace start) (alsoServed : other.Unbroken schedule.trace later)
    (arrived : other.arrival ≤ start) (after : start < later) : before job other := by
  obtain ⟨begun, begins, inFront⟩ := selects job isJob
  cases begins.start_eq served
  exact inFront other isOther different arrived later alsoServed.firstStart after

section Patient

variable {workload : List Spec} {config : Config} {policy : Policy} {scheduler : Scheduler}
  {schedule : Schedule} {job : Job} {start : Nat}

theorem nodup_ids_of_simulate (ran : simulate workload config policy = .ok schedule) :
    (schedule.jobs.map (·.id)).Nodup := by
  rw [jobs_of_simulate ran, List.map_map]
  exact Job.map_id_ofWorkload workload ▸ List.nodup_range'

theorem eq_of_id_of_simulate {other : Job} (ran : simulate workload config policy = .ok schedule)
    (isJob : job ∈ schedule.jobs) (isOther : other ∈ schedule.jobs) (same : job.id = other.id) :
    job = other :=
  List.inj_on_of_nodup_map (nodup_ids_of_simulate ran) isJob isOther same

variable (patient : scheduler.isPreemptive = false)
  (decides : Scheduler.ofPolicy policy config = .ok scheduler)
  (ran : simulate workload config policy = .ok schedule)

include patient decides ran

theorem occupantAt_succ_of_live (submitted : job ∈ Job.ofWorkload workload) {time : Nat}
    (holds : occupantAt schedule.trace time = some job.id)
    (live : job.Live schedule.trace (time + 1)) :
    occupantAt schedule.trace (time + 1) = some job.id := by
  have endless := Scheduler.usesUp_of_not_preemptive patient
  have inPossession := (occupant_gather_iff decides ran endless submitted live).mpr holds
  obtain ⟨tenure, isHolder, _⟩ := Option.map_eq_some_iff.mp inPossession
  have stays := Lineup.dispatch_of_holder isHolder fun front _ _ =>
    Scheduler.overtakes_of_not_preemptive patient front tenure.task
  rw [occupantAt_of_simulate decides ran, Lineup.during, Lineup.assign, stays]
  exact inPossession

/-- From its first start on a job has every tick that it needs. -/
theorem occupantAt_of_start (submitted : job ∈ Job.ofWorkload workload)
    (isFirst : (heldTicks schedule.trace job.id).head? = some start) {ticks : Nat}
    (within : ticks < job.service) :
    occupantAt schedule.trace (start + ticks) = some job.id ∧
      job.leftBefore schedule.trace (start + ticks) = job.service - ticks := by
  have serving := serving_of_simulate ran
  have begins := serving.chronological.mem_heldTicks.mp (List.mem_of_head? isFirst)
  obtain ⟨holder, isHolder, named, arrived, _⟩ := serving.occupied start job.id begins
  cases Job.eq_of_id isHolder submitted named
  induction ticks with
  | zero => exact ⟨begins, serving.chronological.leftBefore_eq isFirst le_rfl⟩
  | succ ticks inductionHypothesis =>
      obtain ⟨holds, left⟩ := inductionHypothesis (by omega)
      have spent := serving.leftBefore_succ submitted (start + ticks)
      rw [if_pos holds] at spent
      have live : job.Live schedule.trace (start + ticks + 1) := ⟨by omega, by omega⟩
      refine ⟨occupantAt_succ_of_live patient decides ran submitted holds live, ?_⟩
      rw [← Nat.add_assoc]
      omega

/-- It has no other ticks, since these are as many as it needs. -/
theorem occupantAt_iff_of_first (submitted : job ∈ Job.ofWorkload workload)
    (isFirst : (heldTicks schedule.trace job.id).head? = some start) (time : Nat) :
    occupantAt schedule.trace time = some job.id ↔ start ≤ time ∧ time < start + job.service := by
  have ordered := (serving_of_simulate ran).chronological
  obtain ⟨_, _, _, traced⟩ := traced_of_submitted ran submitted
  have contained : List.range' start job.service ⊆ heldTicks schedule.trace job.id := by
    intro time member
    obtain ⟨begun, within⟩ := List.mem_range'_1.mp member
    obtain ⟨ticks, rfl⟩ := Nat.exists_eq_add_of_le begun
    exact ordered.mem_heldTicks.mpr (occupantAt_of_start patient decides ran submitted isFirst
      (by omega)).1
  have count : (heldTicks schedule.trace job.id).length ≤
      (List.range' start job.service).length := by
    rw [List.length_range']
    exact traced.held.le
  have ticks := (List.subperm_of_subset List.nodup_range' contained).perm_of_length_le count
  rw [← ordered.mem_heldTicks, ← ticks.mem_iff, List.mem_range'_1]

theorem exists_unbroken (submitted : job ∈ Job.ofWorkload workload) :
    ∃ start, (job.closed (heldTicks schedule.trace job.id)).Unbroken schedule.trace start := by
  have ordered := (serving_of_simulate ran).chronological
  obtain ⟨start, completion, waiting, traced⟩ := traced_of_submitted ran submitted
  have holds := occupantAt_iff_of_first patient decides ran submitted traced.first
  have positive : 0 < job.service := traced.service_pos
  have lastHolds := ordered.mem_heldTicks.mpr ((holds (start + job.service - 1)).mpr (by omega))
  have isLast : (heldTicks schedule.trace job.id).getLast? = some (completion - 1) := traced.last
  have notLater := ordered.le_last_heldTicks isLast _ lastHolds
  have inTime := ((holds _).mp (ordered.mem_heldTicks.mp (List.mem_of_getLast? isLast))).2
  have isCompletion : completion = start + job.service := by
    have completed := traced.completion_pos
    omega
  exact ⟨start, positive, traced.arrival_le, traced.firstStart_eq,
    isCompletion ▸ traced.completion_eq, holds⟩

theorem holder_gather_of_first (submitted : job ∈ Job.ofWorkload workload)
    (isFirst : (heldTicks schedule.trace job.id).head? = some start) :
    ((Lineup.before scheduler (tasksAt workload) start).gather scheduler
      (tasksAt workload start)).holder = none := by
  have serving := serving_of_simulate ran
  have ordered := serving.chronological
  have begins := ordered.mem_heldTicks.mp (List.mem_of_head? isFirst)
  have endless := Scheduler.usesUp_of_not_preemptive patient
  have assigned := occupantAt_of_simulate decides ran start
  obtain ⟨holder, isHolder, named, live⟩ := serving.occupied start job.id begins
  cases Job.eq_of_id isHolder submitted named
  rw [Lineup.during, Lineup.assign, begins] at assigned
  by_contra somebody
  obtain ⟨tenure, isHolder⟩ := Option.ne_none_iff_exists'.mp somebody
  have stays := Lineup.dispatch_of_holder isHolder fun front _ _ =>
    Scheduler.overtakes_of_not_preemptive patient front tenure.task
  cases start with
  | zero => simp [Lineup.before, Lineup.holder_gather endless] at isHolder
  | succ last =>
      rw [stays] at assigned
      have had := (occupant_gather_iff decides ran endless submitted live).mp assigned.symm
      have notEarlier := ordered.head_le_heldTicks isFirst last (ordered.mem_heldTicks.mpr had)
      omega

theorem exists_in_front (submitted : job ∈ Job.ofWorkload workload)
    (isFirst : (heldTicks schedule.trace job.id).head? = some start) :
    ∃ front rest, ((Lineup.before scheduler (tasksAt workload) start).gather scheduler
        (tasksAt workload start)).waiting = front :: rest ∧ front.Unbegun job ∧
      ∀ other ∈ Job.ofWorkload workload, other.id ≠ job.id → other.arrival ≤ start →
        other.leftBefore schedule.trace start = other.service → 0 < other.service →
          ∃ task ∈ rest, task.Unbegun other := by
  have ordered := (serving_of_simulate ran).chronological
  have begins := ordered.mem_heldTicks.mp (List.mem_of_head? isFirst)
  have comprise := comprise_gather decides ran start
  have assigned := occupantAt_of_simulate decides ran start
  have nobody := holder_gather_of_first patient decides ran submitted isFirst
  rw [Lineup.during, Lineup.assign, begins] at assigned
  cases waiting : ((Lineup.before scheduler (tasksAt workload) start).gather scheduler
      (tasksAt workload start)).waiting with
  | nil => simp [Lineup.dispatch, waiting, Lineup.occupant, nobody] at assigned
  | cons front rest =>
      have members : ((Lineup.before scheduler (tasksAt workload) start).gather scheduler
          (tasksAt workload start)).members = front :: rest := by
        simp [Lineup.members, nobody, waiting]
      rw [members] at comprise
      have isFront : front.id = job.id := by
        simpa [Lineup.dispatch, waiting, nobody, Lineup.occupant] using assigned.symm
      refine ⟨front, rest, rfl, ?_, fun other isOther different arrived untouched positive => ?_⟩
      · obtain ⟨owner, isOwner, _, _, isTask⟩ := comprise.exists_job List.mem_cons_self
        cases Job.eq_of_id isOwner submitted ((congrArg Task.id isTask).symm.trans isFront)
        exact .of_plain_eq isTask (ordered.leftBefore_eq isFirst le_rfl)
      · obtain ⟨task, isMember, isTask⟩ :=
          comprise.exists_task isOther arrived (untouched.symm ▸ positive)
        have fresh := Task.Unbegun.of_plain_eq isTask untouched
        refine ⟨task, (List.mem_cons.mp isMember).resolve_left ?_, fresh⟩
        rintro rfl
        exact different (fresh.id.symm.trans isFront)

/-- Where those that wait stand in an order that decides between jobs that have not begun, each job
is selected by it. -/
theorem selects_of_simulate {before : Job → Job → Prop} {stands : Task → Task → Prop}
    (sorted : ∀ time, ((Lineup.before scheduler (tasksAt workload) time).gather scheduler
      (tasksAt workload time)).waiting.Pairwise stands)
    (decided : ∀ {first second : Job} {task other : Task}, task.Unbegun first →
      other.Unbegun second → first.id ≠ second.id → stands task other → before first second) :
    schedule.Selects before := by
  have ordered := (serving_of_simulate ran).chronological
  intro job member
  obtain ⟨submitted, isSubmitted, rfl⟩ := (mem_jobs_of_simulate ran).mp member
  obtain ⟨start, served⟩ := exists_unbroken patient decides ran isSubmitted
  refine ⟨start, served, fun other otherMember different arrived later isLater after => ?_⟩
  obtain ⟨rival, isRival, rfl⟩ := (mem_jobs_of_simulate ran).mp otherMember
  obtain ⟨_, _, _, traced⟩ := traced_of_submitted ran isRival
  have untouched := ordered.leftBefore_eq isLater after.le
  obtain ⟨front, rest, waiting, isFront, others⟩ :=
    exists_in_front patient decides ran isSubmitted served.firstStart
  obtain ⟨task, waits, isTask⟩ :=
    others rival isRival different arrived untouched traced.service_pos
  have inOrder := sorted start
  rw [waiting] at inOrder
  have stands := (List.pairwise_cons.mp inOrder).1 task waits
  exact decided (isFront.closed _) (isTask.closed _) different.symm stands

end Patient

end CpuScheduling
