import CpuScheduling.Proofs.Simulation.Run

/-!
The outcome of every request, whatever the policy.  A request is refused for the first
thing that is wrong with it; otherwise the makespan of the workload decides, and no
check of the machine is ever broken.
-/

namespace CpuScheduling

open Simulation (Passes Reports)

variable {workload : List Spec} {config : Config} {policy : Policy} {schedule : Schedule}

theorem simulate_of_invalid {refusal : Refusal} (invalid : validate workload = .error refusal) :
    simulate workload config policy = .error (.refused refusal) := by
  simp [simulate, invalid, refusing, bind, Except.bind]

theorem simulate_of_refused {refusal : Refusal} (valid : validate workload = .ok ())
    (refused : Simulation.ofWorkload workload config policy = .error refusal) :
    simulate workload config policy = .error (.refused refusal) := by
  simp [simulate, valid, refused, refusing, bind, Except.bind]

theorem exists_of_timeline {timeline : List (Option Nat)}
    (runs : (simulate workload config policy).toOption.map Schedule.timeline = some timeline) :
    ∃ schedule, simulate workload config policy = .ok schedule ∧ schedule.timeline = timeline := by
  obtain ⟨schedule, ran, isTimeline⟩ := Option.map_eq_some_iff.mp runs
  exact ⟨schedule, toOption_eq_some_iff.mp ran, isTimeline⟩

theorem exists_last_of_simulate (ran : simulate workload config policy = .ok schedule) :
    ∃ last : Simulation, last.Orderly workload ∧ last.now = makespan workload ∧
      last.kernel.machine.allFinished = true ∧ Reports last.kernel.machine schedule := by
  cases valid : validate workload with
  | error refusal => simp [simulate_of_invalid valid] at ran
  | ok =>
      cases created : Simulation.ofWorkload workload config policy with
      | error refusal => simp [simulate_of_refused valid created] at ran
      | ok first =>
          obtain ⟨last, passes, ended, orderly, runs, _⟩ :=
            Simulation.simulate_ends created valid
          have nonempty := (Simulation.validate_eq_ok_iff.mp valid).1
          rcases orderly.outcome_cases ended nonempty with
            ⟨inTime, finished, reported, outcome, reports⟩ | ⟨_, outcome⟩
          · have same := (runs.trans outcome).symm.trans ran
            cases same
            exact ⟨last, orderly, inTime, finished, reports⟩
          · simp [runs, outcome] at ran

theorem blank_mem_of_simulate {job : Job} (ran : simulate workload config policy = .ok schedule)
    (reported : job ∈ schedule.jobs) : job.blank ∈ Job.ofWorkload workload := by
  obtain ⟨last, orderly, _, _, reports⟩ := exists_last_of_simulate ran
  obtain ⟨woken, awaited, conserving, _⟩ := orderly.conserving
  rw [reports.jobs] at reported
  obtain ⟨id, present⟩ := Machine.exists_job?_of_mem reported
  exact (conserving.orderly.settled.blank_eq present).2

/-- The CPU rests in the ticks in which all that has arrived has been served. -/
theorem idleTicks_of_simulate (ran : simulate workload config policy = .ok schedule) :
    idleTicks schedule.trace =
      (List.range (makespan workload)).filter fun time => Drained workload time := by
  obtain ⟨last, orderly, inTime, _, reports⟩ := exists_last_of_simulate ran
  obtain ⟨woken, awaited, conserving, _⟩ := orderly.conserving
  rw [reports.record, conserving.idle, ← inTime]
  rfl

theorem demand_arrivals (workload : List Spec) :
    demand (arrivals workload) = (workload.map (·.service.toNat)).sum := by
  have services : (Job.ofWorkload workload).map (·.service) =
      workload.map (·.service.toNat) := by
    apply List.ext_getElem?
    intro index
    simp [Job.getElem?_ofWorkload, Function.comp_def, Job.ofSpec]
  rw [demand, ((arrivals_perm workload).map _).sum_eq, services]

theorem served_of_simulate (ran : simulate workload config policy = .ok schedule) :
    schedule.metrics.totalTicks = makespan workload ∧
      schedule.trace.size = makespan workload ∧
      schedule.metrics.idleTicks + (workload.map (·.service.toNat)).sum = makespan workload := by
  obtain ⟨last, orderly, inTime, finished, reports⟩ := exists_last_of_simulate ran
  obtain ⟨woken, awaited, conserving, _⟩ := orderly.conserving
  obtain ⟨nobodyDue, isPast⟩ := conserving.makespan_le finished
  have size : last.kernel.machine.trace.size = makespan workload :=
    conserving.orderly.settled.elapsed.trans inTime
  have backlog := conserving.backlog
  have parts := busyCount_add_idleTicks last.kernel.machine.trace
  have allWoken : woken = arrivals workload := by
    rw [← conserving.split, nobodyDue, List.append_nil]
  rw [allWoken, demand_arrivals] at backlog
  rw [makespan] at isPast
  refine ⟨reports.totalTicks.trans size, reports.record ▸ size, ?_⟩
  rw [reports.idleTicks]
  omega

/-- No run breaks a check of the machine, and no key of a rank leaves its word. -/
theorem simulate_never_breaks (workload : List Spec) (config : Config) (policy : Policy) :
    ((∃ schedule, simulate workload config policy = .ok schedule) ∨
        ∃ refusal, simulate workload config policy = .error (.refused refusal)) ∧
      (∀ first state, validate workload = .ok () →
        Simulation.ofWorkload workload config policy = .ok first → Passes first state →
        ¬state.Ended → ∃ events next, state.step = .ok (events, next)) ∧
      ∀ (scheduler : Scheduler) (job : Job),
        Int64.minValue.toInt ≤ (scheduler.rank job).key ∧
          (scheduler.rank job).key ≤ Int64.maxValue.toInt := by
  refine ⟨?_, ?_, ?_⟩
  · cases valid : validate workload with
    | error refusal => exact .inr ⟨refusal, simulate_of_invalid valid⟩
    | ok =>
        cases created : Simulation.ofWorkload workload config policy with
        | error refusal => exact .inr ⟨refusal, simulate_of_refused valid created⟩
        | ok first =>
            obtain ⟨last, _, ended, orderly, runs, _⟩ := Simulation.simulate_ends created valid
            have nonempty := (Simulation.validate_eq_ok_iff.mp valid).1
            rcases orderly.outcome_cases ended nonempty with
              ⟨_, _, schedule, outcome, _⟩ | ⟨_, outcome⟩
            · exact .inl ⟨schedule, runs.trans outcome⟩
            · exact .inr ⟨_, runs.trans outcome⟩
  · intro first state valid created passes running
    have orderly := passes.orderly (Simulation.ofWorkload_orderly created valid).1
    obtain ⟨unfinished, early⟩ := not_or.mp running
    obtain ⟨events, next, steps, _⟩ := orderly.step (by simpa using unfinished) (by omega)
    exact ⟨events, next, steps⟩
  · intro scheduler job
    have lowest : Int64.minValue.toInt = -0x8000000000000000 := rfl
    have highest : Int64.maxValue.toInt = 0x7FFFFFFFFFFFFFFF := rfl
    cases scheduler <;>
      simp only [Scheduler.rank, Rank.arrivalOrder, Rank.highestFirst, Rank.lowestFirst] <;> omega

/-- Where nothing is wrong with a request, the makespan alone decides. -/
theorem simulate_of_accepted {first : Simulation} (valid : validate workload = .ok ())
    (created : Simulation.ofWorkload workload config policy = .ok first) :
    (∃ last, Passes first last ∧ last.Ended) ∧
      if makespan workload ≤ config.maxTicks.toNat then
        ∃ schedule, simulate workload config policy = .ok schedule
      else
        simulate workload config policy =
          .error (.refused (.divergence config.maxTicks.toNat)) := by
  obtain ⟨last, passes, ended, orderly, runs, limit, _⟩ := Simulation.simulate_ends created valid
  have nonempty := (Simulation.validate_eq_ok_iff.mp valid).1
  have inTime : last.now ≤ last.maxTicks := orderly.inTime
  refine ⟨⟨last, passes, ended⟩, ?_⟩
  rcases orderly.outcome_cases ended nonempty with
    ⟨atMakespan, _, schedule, outcome, _⟩ | ⟨tooLate, outcome⟩
  · rw [if_pos (by omega)]
    exact ⟨schedule, runs.trans outcome⟩
  · rw [if_neg (by omega), runs, outcome, limit]

theorem ofWorkload_eq_error {other : List Spec} {refusal : Refusal}
    (refused : Simulation.ofWorkload workload config policy = .error refusal) :
    Simulation.ofWorkload other config policy = .error refusal := by
  unfold Simulation.ofWorkload Kernel.ofWorkload at refused ⊢
  cases limits : config.tickLimit with
  | error problem => simpa [limits, bind, Except.bind] using refused
  | ok maxTicks =>
      cases decides : Scheduler.ofPolicy policy config with
      | error problem => simpa [limits, decides, bind, Except.bind] using refused
      | ok scheduler => simp [limits, decides, bind, Except.bind, pure, Except.pure] at refused

/-- Valid workloads that take as long have the same fate. -/
theorem simulate_of_makespan_eq (config : Config) (policy : Policy) {other : List Spec}
    (valid : validate workload = .ok ()) (otherValid : validate other = .ok ())
    (same : makespan other = makespan workload) :
    match simulate workload config policy with
    | .error failure => simulate other config policy = .error failure
    | .ok _ => ∃ schedule, simulate other config policy = .ok schedule := by
  cases created : Simulation.ofWorkload workload config policy with
  | error refusal =>
      rw [simulate_of_refused valid created]
      exact simulate_of_refused otherValid (ofWorkload_eq_error created)
  | ok first =>
      obtain ⟨otherFirst, otherCreated⟩ : ∃ otherFirst,
          Simulation.ofWorkload other config policy = .ok otherFirst := by
        cases otherCreated : Simulation.ofWorkload other config policy with
        | error refusal => cases created.symm.trans (ofWorkload_eq_error otherCreated)
        | ok otherFirst => exact ⟨otherFirst, rfl⟩
      have verdict := (simulate_of_accepted valid created).2
      have otherVerdict := (simulate_of_accepted otherValid otherCreated).2
      rw [same] at otherVerdict
      split at verdict
      next inTime =>
        obtain ⟨schedule, ran⟩ := verdict
        rw [if_pos inTime] at otherVerdict
        rw [ran]
        exact otherVerdict
      next tooLong =>
        rw [if_neg tooLong] at otherVerdict
        rw [verdict]
        exact otherVerdict

theorem exists_ok_iff :
    (∃ schedule, simulate workload config policy = .ok schedule) ↔
      validate workload = .ok () ∧ config.maxTicks ≠ 0 ∧
        (policy.usesQuantum = true → ∃ quantum, config.quantum = some quantum ∧ quantum ≠ 0) ∧
        makespan workload ≤ config.maxTicks.toNat := by
  constructor
  · rintro ⟨schedule, ran⟩
    cases valid : validate workload with
    | error refusal => simp [simulate_of_invalid valid] at ran
    | ok =>
        cases created : Simulation.ofWorkload workload config policy with
        | error refusal => simp [simulate_of_refused valid created] at ran
        | ok first =>
            have limit : config.maxTicks ≠ 0 := by
              intro zero
              have refused : config.tickLimit = .error .zeroMaxTicks := by
                simp [Config.tickLimit, zero]
              rw [Simulation.ofWorkload_of_tickLimit refused] at created
              cases created
            refine ⟨rfl, limit, fun uses => ?_, ?_⟩
            · cases required : config.requiredQuantum with
              | error refusal =>
                  rw [Simulation.ofWorkload_of_requiredQuantum limit uses required] at created
                  cases created
              | ok quantum =>
                  obtain ⟨given, isGiven, nonzero, _⟩ :=
                    Config.requiredQuantum_eq_ok_iff.mp required
                  exact ⟨given, isGiven, nonzero⟩
            · have verdict := (simulate_of_accepted valid created).2
              split at verdict
              next inTime => exact inTime
              next => cases ran.symm.trans verdict
  · rintro ⟨valid, limit, quantum, inTime⟩
    obtain ⟨first, created⟩ := Simulation.exists_ofWorkload limit quantum
    have verdict := (simulate_of_accepted valid created).2
    rwa [if_pos inTime] at verdict

/-- What is wrong with a request comes first; then the makespan alone decides. -/
theorem simulate_outcome (workload : List Spec) (config : Config) (policy : Policy) :
    if workload = [] then
      simulate workload config policy = .error (.refused .emptyWorkload)
    else
      match workload.findIdx? (·.service = 0) with
      | some index => simulate workload config policy = .error (.refused (.noService index))
      | none =>
          if config.maxTicks = 0 then
            simulate workload config policy = .error (.refused .zeroMaxTicks)
          else if policy.usesQuantum ∧ config.quantum = none then
            simulate workload config policy = .error (.refused .missingQuantum)
          else if policy.usesQuantum ∧ config.quantum = some 0 then
            simulate workload config policy = .error (.refused .zeroQuantum)
          else
            (∃ first last, Simulation.ofWorkload workload config policy = .ok first ∧
              Passes first last ∧ last.Ended) ∧
            if makespan workload ≤ config.maxTicks.toNat then
              ∃ schedule, simulate workload config policy = .ok schedule ∧
                schedule.metrics.totalTicks = makespan workload ∧
                schedule.trace.size = makespan workload ∧
                schedule.metrics.idleTicks + (workload.map (·.service.toNat)).sum =
                  makespan workload ∧
                ∀ other otherSchedule, simulate workload config other = .ok otherSchedule →
                  idleTicks otherSchedule.trace = idleTicks schedule.trace
            else
              simulate workload config policy =
                .error (.refused (.divergence config.maxTicks.toNat)) := by
  by_cases empty : workload = []
  · rw [if_pos empty]
    exact simulate_of_invalid (by simp [validate, empty])
  rw [if_neg empty]
  cases found : workload.findIdx? (·.service = 0) with
  | some index => exact simulate_of_invalid (by simp [validate, empty, found])
  | none =>
      have valid : validate workload = .ok () := by simp [validate, empty, found]
      by_cases limit : config.maxTicks = 0
      · rw [if_pos limit]
        exact simulate_of_refused valid
          (Simulation.ofWorkload_of_tickLimit (by simp [Config.tickLimit, limit]))
      rw [if_neg limit]
      by_cases missing : policy.usesQuantum ∧ config.quantum = none
      · rw [if_pos missing]
        exact simulate_of_refused valid (Simulation.ofWorkload_of_requiredQuantum limit missing.1
          (by simp [Config.requiredQuantum, missing.2]))
      rw [if_neg missing]
      by_cases zero : policy.usesQuantum ∧ config.quantum = some 0
      · rw [if_pos zero]
        exact simulate_of_refused valid (Simulation.ofWorkload_of_requiredQuantum limit zero.1
          (by simp [Config.requiredQuantum, zero.2]))
      rw [if_neg zero]
      obtain ⟨first, created⟩ : ∃ first, Simulation.ofWorkload workload config policy =
          .ok first := by
        refine Simulation.exists_ofWorkload limit fun uses => ?_
        cases given : config.quantum with
        | none => exact absurd ⟨uses, given⟩ missing
        | some quantum =>
            refine ⟨quantum, rfl, fun isZero => zero ⟨uses, ?_⟩⟩
            rw [given, isZero]
      obtain ⟨⟨last, passes, ended⟩, verdict⟩ := simulate_of_accepted valid created
      refine ⟨⟨first, last, created, passes, ended⟩, ?_⟩
      by_cases inTime : makespan workload ≤ config.maxTicks.toNat
      · rw [if_pos inTime] at verdict ⊢
        obtain ⟨schedule, ran⟩ := verdict
        obtain ⟨total, size, served⟩ := served_of_simulate ran
        refine ⟨schedule, ran, total, size, served, fun other otherSchedule otherRan => ?_⟩
        rw [idleTicks_of_simulate otherRan, idleTicks_of_simulate ran]
      · rw [if_neg inTime] at verdict ⊢
        exact verdict

end CpuScheduling
