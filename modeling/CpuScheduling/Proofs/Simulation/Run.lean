import CpuScheduling.Proofs.Simulation.Order

/-!
The run from its first tick to its end.  The ticks up to the limit are fuel enough,
so the run ends where the loop does: when every job has finished, or at the limit.
-/

namespace CpuScheduling.Simulation

/-- The states that the loop of a run goes through. -/
inductive Passes (first : Simulation) : Simulation → Prop where
  | first : Passes first first
  | step {simulation next : Simulation} {events : List Event} (passes : Passes first simulation)
      (unfinished : simulation.allFinished = false) (room : simulation.now < simulation.maxTicks)
      (stepped : simulation.step = .ok (events, next)) : Passes first next

def Ended (simulation : Simulation) : Prop :=
  simulation.allFinished = true ∨ simulation.maxTicks ≤ simulation.now

variable {workload : List Spec} {config : Config} {policy : Policy} {first simulation : Simulation}

theorem Passes.orderly (passes : Passes first simulation) (orderly : first.Orderly workload) :
    simulation.Orderly workload := by
  induction passes with
  | first => exact orderly
  | step _ unfinished room stepped inductionHypothesis =>
      obtain ⟨events, next, steps, order, _⟩ := inductionHypothesis.step unfinished room
      cases steps.symm.trans stepped
      exact order

def outcome (last : Simulation) : Except Failure Schedule :=
  if last.allFinished then checking last.schedule
  else .error (.refused (.divergence last.maxTicks))

theorem schedule_of_outcome {last : Simulation} {schedule : Schedule}
    (completes : last.outcome = .ok schedule) :
    last.allFinished = true ∧ last.schedule = .ok schedule := by
  unfold outcome at completes
  split at completes
  next finished =>
    refine ⟨finished, ?_⟩
    cases schedules : last.schedule with
    | error fault => simp [schedules, checking] at completes
    | ok reported => simpa [schedules, checking] using completes
  next => cases completes

theorem runFor_of_ended (ended : simulation.Ended) (fuel : Nat) :
    runFor fuel simulation = simulation.outcome := by
  unfold runFor outcome
  split
  next => rfl
  next unfinished => rw [if_pos (ended.resolve_left unfinished)]

theorem runFor_succ {next : Simulation} {events : List Event}
    (unfinished : simulation.allFinished = false) (room : simulation.now < simulation.maxTicks)
    (steps : simulation.step = .ok (events, next)) (fuel : Nat) :
    runFor (fuel + 1) simulation = runFor fuel next := by
  rw [runFor, if_neg (Bool.eq_false_iff.mp unfinished), if_neg (Nat.not_le.mpr room), steps]

theorem runFor_ends (fuel : Nat) (orderly : simulation.Orderly workload)
    (passes : Passes first simulation) (enough : simulation.maxTicks - simulation.now ≤ fuel) :
    ∃ last, Passes first last ∧ last.Ended ∧ runFor fuel simulation = last.outcome ∧
      last.maxTicks = simulation.maxTicks ∧
      last.kernel.scheduler = simulation.kernel.scheduler := by
  induction fuel generalizing simulation with
  | zero =>
      have ended : simulation.Ended := .inr (by omega)
      exact ⟨simulation, passes, ended, runFor_of_ended ended 0, rfl, rfl⟩
  | succ fuel inductionHypothesis =>
      by_cases ended : simulation.Ended
      · exact ⟨simulation, passes, ended, runFor_of_ended ended (fuel + 1), rfl, rfl⟩
      · obtain ⟨unfinished, room⟩ := not_or.mp ended
        rw [Bool.not_eq_true] at unfinished
        rw [Nat.not_le] at room
        obtain ⟨events, next, steps, order, later, sameLimit, sameScheduler⟩ :=
          orderly.step unfinished room
        obtain ⟨last, reaches, lastEnded, runs, limit, scheduler⟩ :=
          inductionHypothesis order (passes.step unfinished room steps) (by omega)
        exact ⟨last, reaches, lastEnded, (runFor_succ unfinished room steps fuel).trans runs,
          limit.trans sameLimit, scheduler.trans sameScheduler⟩

theorem validate_eq_ok_iff :
    validate workload = .ok () ↔ workload ≠ [] ∧ ∀ spec ∈ workload, 0 < spec.service := by
  unfold validate
  split
  next empty => simp [List.isEmpty_iff.mp empty]
  next nonempty =>
    have someJob : workload ≠ [] := fun none => nonempty (List.isEmpty_iff.mpr none)
    split
    next index found =>
      obtain ⟨inList, idle, _⟩ := List.findIdx?_eq_some_iff_getElem.mp found
      simp only [reduceCtorEq, false_iff, not_and]
      intro _ positive
      have works := positive _ (List.getElem_mem inList)
      simp only [decide_eq_true_eq] at idle
      simp [idle] at works
    next noneIdle =>
      simp only [true_iff]
      refine ⟨someJob, fun spec member => ?_⟩
      have works := List.findIdx?_eq_none_iff.mp noneIdle spec member
      simp only [decide_eq_false_iff_not] at works
      exact UInt64.pos_iff_ne_zero.mpr works

theorem maxTicks_of_created (created : ofWorkload workload config policy = .ok first) :
    first.maxTicks = config.maxTicks.toNat := by
  obtain ⟨maxTicks, limits, rest⟩ := bind_eq_ok_iff.mp created
  obtain ⟨_, _, isFirst⟩ := bind_eq_ok_iff.mp rest
  cases isFirst
  unfold Config.tickLimit at limits
  split at limits
  next => cases limits
  next => exact (Except.ok.inj limits).symm

theorem ofWorkload_underway (created : ofWorkload workload config policy = .ok first)
    (positive : ∀ spec ∈ workload, 0 < spec.service) :
    first.Underway workload ∧ first.now = 0 ∧ first.maxTicks = config.maxTicks.toNat ∧
      first.kernel.machine.jobs = Job.ofWorkload workload := by
  have isLimit := maxTicks_of_created created
  obtain ⟨maxTicks, _, rest⟩ := bind_eq_ok_iff.mp created
  obtain ⟨kernel, creates, isFirst⟩ := bind_eq_ok_iff.mp rest
  cases isFirst
  obtain ⟨orderly, start, record, jobs⟩ := Kernel.ofWorkload_orderly creates positive
  have due : ∀ job ∈ arrivals workload, kernel.machine.now ≤ job.arrival ∧
      kernel.machine.job? job.id = some job := by
    intro job member
    obtain ⟨found, present, same⟩ :=
      orderly.settled.exists_submitted (mem_arrivals.mp member)
    have isBlank : found.blank = found := by
      have inTable := Machine.mem_jobs_of_job? present
      rw [jobs] at inTable
      exact Job.blank_of_mem_ofWorkload inTable
    refine ⟨by omega, ?_⟩
    rw [present, ← isBlank, same]
  refine ⟨⟨⟨[], arrivals workload, ⟨⟨orderly, rfl, by simp, due⟩, ?_, ?_⟩, ?_⟩, ?_⟩, start, isLimit,
    jobs⟩
  · simp [record]
  · simp [record, start, idleTicks]
  · rw [map_id_arrivals]
    exact congrArg arrivalOrder jobs
  · exact isLimit ▸ config.maxTicks.toNat_lt

theorem ofWorkload_orderly (created : ofWorkload workload config policy = .ok first)
    (valid : validate workload = .ok ()) :
    first.Orderly workload ∧ first.allFinished = false ∧
      first.maxTicks = config.maxTicks.toNat := by
  obtain ⟨nonempty, positive⟩ := validate_eq_ok_iff.mp valid
  obtain ⟨underway, start, isLimit, jobs⟩ := ofWorkload_underway created positive
  obtain ⟨woken, awaited, conserving, _⟩ := underway.conserving
  have isStart : first.kernel.machine.now = 0 := start
  have noneFinished := conserving.orderly.finished
  have unfinished : first.allFinished = false := by
    have someJob := List.length_pos_iff.mpr nonempty
    have count : first.kernel.machine.jobs.length = workload.length := by simp [jobs]
    simp only [Simulation.allFinished, Machine.allFinished, beq_eq_false_iff_ne]
    omega
  refine ⟨⟨underway, ?_, ?_⟩, unfinished, isLimit⟩
  · exact Nat.le_trans (Nat.le_of_eq start) (Nat.zero_le _)
  · intro finished
    exact absurd (finished.symm.trans unfinished) (by simp)

theorem exists_ofWorkload (limit : config.maxTicks ≠ 0)
    (quantum : policy.usesQuantum = true → ∃ quantum, config.quantum = some quantum ∧ quantum ≠ 0) :
    ∃ first, ofWorkload workload config policy = .ok first := by
  have limits : config.tickLimit = .ok config.maxTicks.toNat := by
    simp [Config.tickLimit, limit]
  have schedulers : ∃ scheduler, Scheduler.ofPolicy policy config = .ok scheduler := by
    cases policy with
    | roundRobin | agingRoundRobin =>
        obtain ⟨length, given, positive⟩ := quantum rfl
        simp [Scheduler.ofPolicy, Config.requiredQuantum, given, positive, Except.map]
    | _ => exact ⟨_, rfl⟩
  obtain ⟨scheduler, isScheduler⟩ := schedulers
  have kernels : Kernel.ofWorkload workload config policy = .ok _ :=
    bind_eq_ok_iff.mpr ⟨scheduler, isScheduler, rfl⟩
  exact ⟨_, bind_eq_ok_iff.mpr ⟨_, limits, bind_eq_ok_iff.mpr ⟨_, kernels, rfl⟩⟩⟩

theorem ofWorkload_of_tickLimit {refusal : Refusal} (refused : config.tickLimit = .error refusal) :
    ofWorkload workload config policy = .error refusal := by
  simp [ofWorkload, refused, bind, Except.bind]

theorem ofWorkload_of_requiredQuantum {refusal : Refusal} (limit : config.maxTicks ≠ 0)
    (uses : policy.usesQuantum = true) (refused : config.requiredQuantum = .error refusal) :
    ofWorkload workload config policy = .error refusal := by
  have noScheduler : Scheduler.ofPolicy policy config = .error refusal := by
    cases policy with
    | roundRobin | agingRoundRobin => simp [Scheduler.ofPolicy, refused, Except.map]
    | _ => cases uses
  simp [ofWorkload, Config.tickLimit, limit, Kernel.ofWorkload, noScheduler, bind, Except.bind]

structure Reports (machine : Machine) (schedule : Schedule) : Prop where
  record : schedule.trace = machine.trace
  jobs : schedule.jobs = machine.jobs
  totalTicks : schedule.metrics.totalTicks = machine.trace.size
  idleTicks : schedule.metrics.idleTicks = (idleTicks machine.trace).length
  switches : schedule.metrics.contextSwitches = machine.switches

theorem exists_schedule (nonempty : simulation.kernel.machine.jobs ≠ [])
    (finished : ∀ job ∈ simulation.kernel.machine.jobs, job.phase = .finished) :
    ∃ schedule, simulation.schedule = .ok schedule ∧
      Reports simulation.kernel.machine schedule := by
  have measured : Metrics.ofRun simulation.kernel.machine.jobs simulation.kernel.machine.trace
      simulation.kernel.machine.switches = .ok _ :=
    bind_eq_ok_iff.mpr ⟨(), ensure_eq_ok_iff.mpr nonempty,
      bind_eq_ok_iff.mpr ⟨(), ensure_eq_ok_iff.mpr finished, rfl⟩⟩
  refine ⟨_, bind_eq_ok_iff.mpr ⟨_, measured, rfl⟩, ?_⟩
  · refine ⟨rfl, rfl, rfl, ?_, rfl⟩
    simp [CpuScheduling.idleTicks, List.countP_eq_length_filter, ← Array.countP_toList]

/-- A run that has begun goes through its loop and comes to its outcome. -/
theorem simulate_ends (created : ofWorkload workload config policy = .ok first)
    (valid : validate workload = .ok ()) :
    ∃ last, Passes first last ∧ last.Ended ∧ last.Orderly workload ∧
      simulate workload config policy = last.outcome ∧ last.maxTicks = config.maxTicks.toNat ∧
      last.kernel.scheduler = first.kernel.scheduler := by
  obtain ⟨orderly, unfinished, limit⟩ := ofWorkload_orderly created valid
  obtain ⟨last, passes, ended, runs, sameLimit, sameScheduler⟩ :=
    runFor_ends (first.maxTicks - first.now) orderly .first (Nat.le_refl _)
  refine ⟨last, passes, ended, passes.orderly orderly, ?_, sameLimit.trans limit, sameScheduler⟩
  simp [simulate, valid, created, refusing, run, runs, bind, Except.bind]

/-- The loop stops with all jobs finished just at the makespan, or before it at the
limit. -/
theorem Orderly.outcome_cases {last : Simulation} (orderly : last.Orderly workload)
    (ended : last.Ended) (nonempty : workload ≠ []) :
    (last.now = makespan workload ∧ last.kernel.machine.allFinished = true ∧
      ∃ schedule, last.outcome = .ok schedule ∧ Reports last.kernel.machine schedule) ∨
    (last.maxTicks < makespan workload ∧
      last.outcome = .error (.refused (.divergence last.maxTicks))) := by
  obtain ⟨woken, awaited, conserving, pending⟩ := orderly.conserving
  cases finished : last.allFinished with
  | true =>
      have allDone := conserving.orderly.settled.allFinished_iff.mp finished
      have someJob : last.kernel.machine.jobs ≠ [] := by
        have table := conserving.orderly.settled.table
        intro none
        rw [none] at table
        have count := congrArg List.length table
        simp only [List.map_nil, List.length_nil, Job.length_ofWorkload] at count
        exact nonempty (List.length_eq_zero_iff.mp count.symm)
      obtain ⟨schedule, schedules, reports⟩ := exists_schedule someJob allDone
      refine .inl ⟨orderly.ends finished, finished, schedule, ?_, reports⟩
      simp [outcome, finished, schedules, checking]
  | false =>
      have atLimit := ended.resolve_left (by simp [finished])
      have unserved : last.now < makespan workload := conserving.lt_makespan finished
      exact .inr ⟨by omega, by simp [outcome, finished]⟩

end CpuScheduling.Simulation
