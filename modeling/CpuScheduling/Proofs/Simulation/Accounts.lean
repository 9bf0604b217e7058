import CpuScheduling.Proofs.Simulation.Outcome

/-!
A completed schedule tells one story: the times that the books of a job keep can be
read off the trace.
-/

namespace CpuScheduling

/-- The books of a finished job say what the trace says. -/
structure Job.Traced (record : Array TraceEntry) (start completion waiting : Nat) (job : Job) :
    Prop where
  finished : job.phase = .finished
  remaining : job.remaining = 0
  held : (heldTicks record job.id).length = job.service
  arrival_le : job.arrival ≤ start
  firstStart_eq : job.firstStart = some start
  first : (heldTicks record job.id).head? = some start
  response_eq : job.response = some (start - job.arrival)
  completion_pos : 0 < completion
  completion_eq : job.completion = some completion
  last : (heldTicks record job.id).getLast? = some (completion - 1)
  turnaround_eq : job.turnaround = some (completion - job.arrival)
  waiting_eq : job.waiting = some waiting
  divides : completion - job.arrival = waiting + job.service
  elsewhere : waiting = (List.range' job.arrival (completion - job.arrival)).countP
    fun time => occupantAt record time ≠ some job.id

/-- The trace accounts for every job of a workload. -/
structure Schedule.Accounted (workload : List Spec) (schedule : Schedule) : Prop where
  times : schedule.trace.toList.map (·.time) = List.range schedule.trace.size
  length : (schedule.jobs.filterMap (·.completion)).max? = some schedule.trace.size
  submitted : ∀ index : Nat, schedule.jobs[index]?.map
      (fun job => (job.id, job.arrival, job.service, job.priority)) =
    workload[index]?.map
      (fun spec => (index + 1, spec.arrival.toNat, spec.service.toNat, spec.priority.toNat))
  traced : ∀ job ∈ schedule.jobs, ∃ start completion waiting,
    job.Traced schedule.trace start completion waiting
  once : schedule.completionOrder.Perm (List.range' 1 workload.length)
  increasing : ∃ ordered : List Job, ordered.Perm schedule.jobs ∧
    schedule.completionOrder = ordered.map (·.id) ∧
    ordered.Pairwise fun first second => ∃ early late,
      first.completion = some early ∧ second.completion = some late ∧ early < late

variable {workload : List Spec} {config : Config} {policy : Policy} {schedule : Schedule}

namespace Job

variable {record : Array TraceEntry} {fixesWaiting : Bool} {now : Nat} {job : Job}

theorem Balanced.held_between
    (balanced : job.Balanced fixesWaiting now (heldTicks record job.id))
    (ordered : Chronological record) {last : Nat}
    (isLast : (heldTicks record job.id).getLast? = some last) :
    ∀ time ∈ heldTicks record job.id, job.arrival ≤ time ∧ time < last + 1 := by
  intro time member
  have inTime := ordered.le_last_heldTicks isLast time member
  exact ⟨(balanced.past time member).1, by omega⟩

theorem Balanced.traced (balanced : job.Balanced fixesWaiting now (heldTicks record job.id))
    (isFinished : job.phase = .finished) (ordered : Chronological record) :
    ∃ start completion waiting, job.Traced record start completion waiting := by
  have worked := balanced.worked
  have done := balanced.finished_iff.mp isFinished
  obtain ⟨last, isLast, _, completion⟩ := balanced.exists_completion isFinished
  have hasHeld : heldTicks record job.id ≠ [] := by
    rintro nothing
    simp [nothing] at isLast
  obtain ⟨start, rest, split⟩ := List.exists_cons_of_ne_nil hasHeld
  have firstStart : job.firstStart = some start := by
    simp [balanced.firstStart_eq, isFinished, split]
  have turnaround : job.turnaround = some (last + 1 - job.arrival) := by
    simp [balanced.turnaround_eq, completion]
  have served := balanced.served (last + 1) completion
  have elsewhere := ordered.countP_elsewhere (balanced.held_between ordered isLast)
  exact ⟨start, last + 1, last + 1 - job.arrival - job.service, {
    finished := isFinished
    remaining := done
    held := by omega
    arrival_le := (balanced.past start (by simp [split])).1
    firstStart_eq := firstStart
    first := by simp [split]
    response_eq := by simp [balanced.response_eq, firstStart]
    completion_pos := Nat.succ_pos last
    completion_eq := completion
    last := isLast
    turnaround_eq := turnaround
    waiting_eq := by simp [balanced.waiting_eq, isFinished, turnaround]
    divides := by omega
    elsewhere := by omega }⟩

end Job

theorem Job.Traced.service_pos {record : Array TraceEntry} {job : Job}
    {start completion waiting : Nat} (traced : job.Traced record start completion waiting) :
    0 < job.service := by
  rw [← traced.held]
  exact List.length_pos_of_mem (List.mem_of_mem_head? traced.first)

theorem Job.Traced.completion_ne {record : Array TraceEntry} {first second : Job}
    {start otherStart completion other waiting otherWaiting : Nat}
    (ordered : Chronological record)
    (firstTraced : first.Traced record start completion waiting)
    (secondTraced : second.Traced record otherStart other otherWaiting)
    (different : first.id ≠ second.id) : completion ≠ other := by
  rintro rfl
  have holds := ordered.mem_heldTicks.mp (List.mem_of_getLast? firstTraced.last)
  have otherHolds := ordered.mem_heldTicks.mp (List.mem_of_getLast? secondTraced.last)
  exact different (Option.some.inj (holds.symm.trans otherHolds))

namespace Schedule

theorem completesBefore_total (first second : Job) :
    completesBefore first second ∨ completesBefore second first := by
  cases isFirst : first.completion <;> cases isSecond : second.completion <;>
    simp [completesBefore, isFirst, isSecond]
  omega

theorem completesBefore_trans (first second third : Job) :
    completesBefore first second → completesBefore second third →
      completesBefore first third := by
  cases isFirst : first.completion <;> cases isSecond : second.completion <;>
    cases isThird : third.completion <;>
    simp [completesBefore, isFirst, isSecond, isThird]
  omega

theorem pairwise_completion {record : Array TraceEntry} {jobs : List Job}
    (ordered : Chronological record)
    (traced : ∀ job ∈ jobs, ∃ start completion waiting,
      job.Traced record start completion waiting)
    (nodup : (jobs.map (·.id)).Nodup) :
    (sortByInsertion completesBefore jobs).Pairwise fun first second => ∃ early late,
      first.completion = some early ∧ second.completion = some late ∧ early < late := by
  have places := sortByInsertion_perm completesBefore jobs
  have sorted := pairwise_sortByInsertion completesBefore_total completesBefore_trans jobs
  have distinct : (sortByInsertion completesBefore jobs).Pairwise fun first second =>
      first.id ≠ second.id :=
    List.pairwise_map.mp ((places.map Job.id).nodup_iff.mpr nodup)
  refine (sorted.and distinct).imp_of_mem ?_
  intro first second isFirst isSecond ⟨before, different⟩
  obtain ⟨_, early, _, firstTraced⟩ := traced first (places.mem_iff.mp isFirst)
  obtain ⟨_, late, _, secondTraced⟩ := traced second (places.mem_iff.mp isSecond)
  refine ⟨early, late, firstTraced.completion_eq, secondTraced.completion_eq, ?_⟩
  simp only [completesBefore, firstTraced.completion_eq, secondTraced.completion_eq,
    decide_eq_true_eq] at before
  exact Nat.lt_of_le_of_ne before (firstTraced.completion_ne ordered secondTraced different)

end Schedule

/-- The last tick of a run is a tick of work: some job completes with it. -/
theorem exists_completion_at_makespan {woken awaited : List Job} {kernel : Kernel}
    (conserving : kernel.Conserving workload woken awaited)
    (inTime : kernel.machine.now = makespan workload) (nonempty : workload ≠ [])
    (finished : ∀ job ∈ kernel.machine.jobs, job.phase = .finished) :
    ∃ job ∈ kernel.machine.jobs, job.completion = some (makespan workload) := by
  have settled := conserving.orderly.settled
  have ordered := settled.chronological
  have someJob : (arrivals workload).length ≠ 0 := by
    rw [(arrivals_perm workload).length_eq, Job.length_ofWorkload]
    exact fun none => nonempty (List.length_eq_zero_iff.mp none)
  obtain ⟨submitted, isSubmitted⟩ := List.exists_mem_of_length_pos (Nat.pos_of_ne_zero someJob)
  have positive : 0 < makespan workload :=
    Nat.zero_lt_of_lt (conserving.arrival_lt_makespan isSubmitted)
  obtain ⟨time, last⟩ : ∃ time, time + 1 = makespan workload := ⟨_, Nat.sub_add_cancel positive⟩
  have unserved : ¬Drained workload time := by
    have arrived : ∀ job ∈ arrivals workload, job.arrival ≤ time := fun job member => by
      have before := conserving.arrival_lt_makespan member
      omega
    rw [drained_iff (List.append_nil _) arrived (by simp)]
    rw [makespan] at last
    omega
  have busy : time ∉ idleTicks kernel.machine.trace := by
    rw [conserving.idle, List.mem_filter, decide_eq_true_eq]
    exact fun rests => unserved rests.2
  have occupied : ∃ id, occupantAt kernel.machine.trace time = some id := by
    cases occupant : occupantAt kernel.machine.trace time with
    | some id => exact ⟨id, rfl⟩
    | none =>
        have inTrace : time < kernel.machine.trace.size := by
          rw [settled.elapsed]
          omega
        rw [ordered.idleTicks_eq, List.mem_filter, List.mem_range] at busy
        exact absurd ⟨inTrace, by simp [occupant]⟩ busy
  obtain ⟨id, holds⟩ := occupied
  have held := ordered.mem_heldTicks.mpr holds
  cases present : kernel.machine.job? id with
  | none => simp [settled.known id present] at held
  | some job =>
      have member := Machine.mem_jobs_of_job? present
      have named := (settled.blank_eq present).1
      have balanced := settled.balanced id job present
      subst named
      obtain ⟨lastHeld, isLast, inPast, completion⟩ :=
        balanced.exists_completion (finished job member)
      have between := (balanced.held_between ordered isLast time held).2
      have same : lastHeld + 1 = makespan workload := by omega
      exact ⟨job, member, same ▸ completion⟩

theorem submission_eq {machine : Machine} {clock : Nat} (booked : machine.Booked workload clock)
    (index : Nat) :
    machine.jobs[index]?.map (fun job => (job.id, job.arrival, job.service, job.priority)) =
      workload[index]?.map
        (fun spec => (index + 1, spec.arrival.toNat, spec.service.toNat, spec.priority.toNat)) := by
  have listed := congrArg (·[index]?) booked.table
  simp only [List.getElem?_map, Job.getElem?_ofWorkload] at listed
  cases isJob : machine.jobs[index]? with
  | none =>
      rw [isJob] at listed
      cases isSpec : workload[index]? with
      | none => rfl
      | some spec => simp [isSpec] at listed
  | some job =>
      rw [isJob] at listed
      cases isSpec : workload[index]? with
      | none => simp [isSpec] at listed
      | some spec =>
          simp only [isSpec, Option.map_some, Option.some.injEq] at listed
          have id := congrArg Job.id listed
          have arrival := congrArg Job.arrival listed
          have service := congrArg Job.service listed
          have priority := congrArg Job.priority listed
          simp only [Job.blank, Job.ofSpec] at id arrival service priority
          simp [id, arrival, service, priority]

theorem nonempty_of_simulate (ran : simulate workload config policy = .ok schedule) :
    workload ≠ [] := by
  intro empty
  have invalid : validate workload = .error .emptyWorkload := by simp [validate, empty]
  simp [simulate_of_invalid invalid] at ran

/-- What the books of a completed schedule say of every job. -/
theorem traced_of_simulate (ran : simulate workload config policy = .ok schedule) :
    schedule.jobs.map Job.blank = Job.ofWorkload workload ∧
      ∀ job ∈ schedule.jobs, ∃ start completion waiting,
        job.Traced schedule.trace start completion waiting ∧ completion ≤ makespan workload := by
  obtain ⟨last, orderly, inTime, finished, reports⟩ := exists_last_of_simulate ran
  obtain ⟨woken, awaited, conserving, _⟩ := orderly.conserving
  have settled := conserving.orderly.settled
  rw [reports.record, reports.jobs]
  refine ⟨settled.table, fun job member => ?_⟩
  obtain ⟨id, present⟩ := Machine.exists_job?_of_mem member
  have balanced := settled.balanced id job present
  rw [← (settled.blank_eq present).1] at balanced
  obtain ⟨start, completion, waiting, traced⟩ :=
    balanced.traced (settled.allFinished_iff.mp finished job member) settled.chronological
  have lastHeld := settled.chronological.lt_size_of_mem_heldTicks (List.mem_of_getLast? traced.last)
  have positive := traced.completion_pos
  have elapsed : last.kernel.machine.trace.size = makespan workload :=
    settled.elapsed.trans inTime
  exact ⟨start, completion, waiting, traced, by omega⟩

theorem exists_last_occupant (ran : simulate workload config policy = .ok schedule) :
    ∃ time id, time + 1 = makespan workload ∧ occupantAt schedule.trace time = some id := by
  obtain ⟨last, orderly, inTime, finished, reports⟩ := exists_last_of_simulate ran
  obtain ⟨woken, awaited, conserving, _⟩ := orderly.conserving
  have settled := conserving.orderly.settled
  obtain ⟨job, member, completion⟩ := exists_completion_at_makespan conserving inTime
    (nonempty_of_simulate ran) (settled.allFinished_iff.mp finished)
  rw [← reports.jobs] at member
  obtain ⟨_, completed, _, traced, _⟩ := (traced_of_simulate ran).2 job member
  cases completion.symm.trans traced.completion_eq
  have ordered : Chronological schedule.trace := reports.record ▸ settled.chronological
  exact ⟨_, job.id, Nat.sub_add_cancel traced.completion_pos,
    ordered.mem_heldTicks.mp (List.mem_of_getLast? traced.last)⟩

/-- Every completed run accounts for its trace and for every job. -/
theorem simulate_accounted (ran : simulate workload config policy = .ok schedule) :
    schedule.Accounted workload := by
  obtain ⟨last, orderly, inTime, finished, reports⟩ := exists_last_of_simulate ran
  obtain ⟨woken, awaited, conserving, _⟩ := orderly.conserving
  have settled := conserving.orderly.settled
  have ordered := settled.chronological
  have allDone := settled.allFinished_iff.mp finished
  have size : last.kernel.machine.trace.size = makespan workload := settled.elapsed.trans inTime
  have traced : ∀ job ∈ last.kernel.machine.jobs, ∃ start completion waiting,
      job.Traced last.kernel.machine.trace start completion waiting := by
    intro job member
    obtain ⟨id, present⟩ := Machine.exists_job?_of_mem member
    have balanced := settled.balanced id job present
    rw [← (settled.blank_eq present).1] at balanced
    exact balanced.traced (allDone job member) ordered
  have ids : last.kernel.machine.jobs.map (·.id) = List.range' 1 workload.length := by
    have sameIds := congrArg (List.map Job.id) settled.table
    rw [List.map_map, Job.map_id_ofWorkload] at sameIds
    exact sameIds
  constructor
  · rw [reports.record]
    exact ordered
  · rw [reports.record, reports.jobs, size]
    obtain ⟨job, member, completion⟩ :=
      exists_completion_at_makespan conserving inTime (nonempty_of_simulate ran) allDone
    refine List.max?_eq_some_iff.mpr ⟨List.mem_filterMap.mpr ⟨job, member, completion⟩, ?_⟩
    intro time isCompletion
    obtain ⟨other, isOther, atTime⟩ := List.mem_filterMap.mp isCompletion
    obtain ⟨id, present⟩ := Machine.exists_job?_of_mem isOther
    obtain ⟨completed, isCompleted, inPast, _⟩ :=
      (settled.balanced id other present).finished_timing (allDone other isOther)
    cases isCompleted.symm.trans atTime
    exact inTime ▸ inPast
  · rw [reports.jobs]
    exact submission_eq settled.toBooked
  · rw [reports.record, reports.jobs]
    exact traced
  · rw [Schedule.completionOrder, reports.jobs, ← ids]
    exact (sortByInsertion_perm _ _).map _
  · refine ⟨_, sortByInsertion_perm Schedule.completesBefore schedule.jobs, rfl, ?_⟩
    rw [reports.jobs]
    refine Schedule.pairwise_completion ordered traced ?_
    rw [ids]
    exact List.nodup_range'

/-- The second job displaces the first one. -/
theorem simulate_accounted_preemption :
    ∃ schedule, simulate [⟨0, 3, 0⟩, ⟨1, 1, 0⟩] { maxTicks := 10 } .srtf = .ok schedule ∧
      schedule.timeline = [some 1, some 2, some 1, some 1] ∧
      schedule.Accounted [⟨0, 3, 0⟩, ⟨1, 1, 0⟩] := by
  have runs : (simulate [⟨0, 3, 0⟩, ⟨1, 1, 0⟩] { maxTicks := 10 } .srtf).toOption.map
      Schedule.timeline = some [some 1, some 2, some 1, some 1] := by
    decide +kernel
  cases ran : simulate [⟨0, 3, 0⟩, ⟨1, 1, 0⟩] { maxTicks := 10 } .srtf with
  | error failure => simp [ran, Except.toOption] at runs
  | ok schedule =>
      have timeline : schedule.timeline = [some 1, some 2, some 1, some 1] := by
        simpa [ran, Except.toOption] using runs
      exact ⟨schedule, rfl, timeline, simulate_accounted ran⟩

end CpuScheduling
