import CpuScheduling.Proofs.Lineup.Run
import CpuScheduling.Proofs.Lineup.Undisturbed
import CpuScheduling.Proofs.Simulation.FinalBooks
import CpuScheduling.Proofs.Simulation.Switches

/-!
Policies that do the same.  All that a run yields, but for the name of the policy, is told by
who has the CPU in each tick; so two policies whose line-ups have the same occupants have the
same outcome.
-/

namespace CpuScheduling

def Schedule.named (schedule : Schedule) (policy : Policy) : Schedule :=
  { schedule with policy := policy }

/-- Both policies fail alike, or their schedules differ in nothing but the name. -/
def SameOutcome (workload : List Spec) (config : Config) (policy other : Policy) : Prop :=
  simulate workload config other = (simulate workload config policy).map (·.named other)

variable {workload : List Spec} {config otherConfig : Config} {policy other : Policy}
  {schedule otherSchedule : Schedule} {scheduler otherScheduler : Scheduler}

theorem Simulation.schedule_ok {simulation : Simulation}
    (schedules : simulation.schedule = .ok schedule) :
    schedule.policy = simulation.kernel.scheduler.policy ∧
      Metrics.ofRun schedule.jobs schedule.trace schedule.metrics.contextSwitches =
        .ok schedule.metrics := by
  obtain ⟨metrics, measured, isSchedule⟩ := bind_eq_ok_iff.mp schedules
  have counts : metrics.contextSwitches = simulation.kernel.machine.switches := by
    obtain ⟨_, _, rest⟩ := bind_eq_ok_iff.mp measured
    obtain ⟨_, _, isMetrics⟩ := bind_eq_ok_iff.mp rest
    cases isMetrics
    rfl
  cases isSchedule
  exact ⟨rfl, counts ▸ measured⟩

theorem measured_of_simulate (ran : simulate workload config policy = .ok schedule) :
    schedule.policy = policy ∧
      Metrics.ofRun schedule.jobs schedule.trace schedule.metrics.contextSwitches =
        .ok schedule.metrics := by
  cases valid : validate workload with
  | error refusal => simp [simulate_of_invalid valid] at ran
  | ok =>
      cases created : Simulation.ofWorkload workload config policy with
      | error refusal => simp [simulate_of_refused valid created] at ran
      | ok first =>
          obtain ⟨scheduler, decides, isInitial⟩ := Simulation.exists_initial created
          obtain ⟨last, _, _, _, runs, _, sameScheduler⟩ := Simulation.simulate_ends created valid
          obtain ⟨_, schedules⟩ := Simulation.schedule_of_outcome (runs.symm.trans ran)
          obtain ⟨isPolicy, measured⟩ := Simulation.schedule_ok schedules
          rw [sameScheduler, isInitial] at isPolicy
          exact ⟨isPolicy.trans (Scheduler.policy_of_ofPolicy decides), measured⟩

theorem trace_eq_of_occupantAt {otherWorkload : List Spec}
    (ran : simulate workload config policy = .ok schedule)
    (otherRan : simulate otherWorkload otherConfig other = .ok otherSchedule)
    (length : makespan otherWorkload = makespan workload)
    (same : ∀ time, occupantAt otherSchedule.trace time = occupantAt schedule.trace time) :
    otherSchedule.trace = schedule.trace := by
  obtain ⟨ordered, size⟩ := chronological_of_simulate ran
  obtain ⟨otherOrdered, otherSize⟩ := chronological_of_simulate otherRan
  apply Array.ext'
  rw [ordered.toList_eq, otherOrdered.toList_eq, size, otherSize, length]
  exact List.map_congr_left fun time _ => congrArg (TraceEntry.mk time) (same time)

theorem eq_named_of_occupantAt (ran : simulate workload config policy = .ok schedule)
    (otherRan : simulate workload otherConfig other = .ok otherSchedule)
    (same : ∀ time, occupantAt otherSchedule.trace time = occupantAt schedule.trace time) :
    otherSchedule = schedule.named other := by
  have record : otherSchedule.trace = schedule.trace :=
    trace_eq_of_occupantAt ran otherRan rfl same
  have jobs : otherSchedule.jobs = schedule.jobs := by
    rw [jobs_of_simulate otherRan, jobs_of_simulate ran, record]
  have switches : otherSchedule.metrics.contextSwitches = schedule.metrics.contextSwitches := by
    rw [contextSwitches_of_simulate otherRan, contextSwitches_of_simulate ran, record]
  obtain ⟨_, measured⟩ := measured_of_simulate ran
  obtain ⟨isOther, otherMeasured⟩ := measured_of_simulate otherRan
  rw [jobs, record, switches, measured, Except.ok.injEq] at otherMeasured
  cases otherSchedule
  cases isOther
  cases otherMeasured
  cases record
  cases jobs
  rfl

/-- Policies whose line-ups have the same occupants have the same outcome. -/
theorem sameOutcome_of_occupant (valid : validate workload = .ok ())
    (decides : Scheduler.ofPolicy policy config = .ok scheduler)
    (otherDecides : Scheduler.ofPolicy other config = .ok otherScheduler)
    (same : ∀ time, (Lineup.during otherScheduler (tasksAt workload) time).occupant =
      (Lineup.during scheduler (tasksAt workload) time).occupant) :
    SameOutcome workload config policy other := by
  unfold SameOutcome
  cases limits : config.tickLimit with
  | error refusal =>
      rw [simulate_of_refused valid (Simulation.ofWorkload_of_tickLimit limits),
        simulate_of_refused valid (Simulation.ofWorkload_of_tickLimit limits)]
      rfl
  | ok maxTicks =>
      have created {policy : Policy} {scheduler : Scheduler}
          (decides : Scheduler.ofPolicy policy config = .ok scheduler) :
          ∃ first, Simulation.ofWorkload workload config policy = .ok first :=
        ⟨_, bind_eq_ok_iff.mpr
          ⟨_, limits, bind_eq_ok_iff.mpr ⟨_, bind_eq_ok_iff.mpr ⟨_, decides, rfl⟩, rfl⟩⟩⟩
      obtain ⟨first, isFirst⟩ := created decides
      obtain ⟨otherFirst, isOther⟩ := created otherDecides
      have verdict := (simulate_of_accepted valid isFirst).2
      have otherVerdict := (simulate_of_accepted valid isOther).2
      split at verdict
      next inTime =>
        rw [if_pos inTime] at otherVerdict
        obtain ⟨schedule, ran⟩ := verdict
        obtain ⟨otherSchedule, otherRan⟩ := otherVerdict
        rw [ran, otherRan, eq_named_of_occupantAt ran otherRan fun time => ?_]
        · rfl
        · rw [occupantAt_of_simulate otherDecides otherRan, occupantAt_of_simulate decides ran, same]
      next tooLong =>
        rw [if_neg tooLong] at otherVerdict
        rw [verdict, otherVerdict]
        rfl

theorem unaged_tasksAt (workload : List Spec) (time : Nat) :
    ∀ task ∈ tasksAt workload time, task.Unaged := by
  intro task member
  obtain ⟨job, submitted, _, rfl⟩ := mem_tasksAt.mp member
  obtain ⟨index, spec, _, rfl⟩ := Job.mem_ofWorkload.mp submitted
  rfl

/-- A policy under which no tick disturbs a holder does the same as a plain one. -/
theorem sameOutcome_of_undisturbed (valid : validate workload = .ok ())
    (decides : Scheduler.ofPolicy policy config = .ok scheduler)
    (otherDecides : Scheduler.ofPolicy other config = .ok otherScheduler)
    (patient : scheduler.isPreemptive = false) (steady : otherScheduler.isSteady = true)
    (undisturbed : ∀ time, (Lineup.before otherScheduler (tasksAt workload) time).Undisturbed
      otherScheduler scheduler (tasksAt workload time)) :
    SameOutcome workload config policy other :=
  sameOutcome_of_occupant valid decides otherDecides fun time =>
    Lineup.occupant_of_undisturbed patient steady (unaged_tasksAt workload) undisturbed time

end CpuScheduling
