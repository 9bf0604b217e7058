import CpuScheduling.Proofs.Simulation.History

/-!
No policy lets the CPU rest while a job has work left.
-/

namespace CpuScheduling

variable {workload : List Spec}

/-- In an idle tick every job that has arrived has got all its service. -/
def WorkConserving (workload : List Spec) (record : Array TraceEntry) : Prop :=
  ∀ time ∈ idleTicks record, ∀ job ∈ Job.ofWorkload workload, job.arrival ≤ time →
    workedBefore record job.id time = job.service

namespace Kernel

variable {kernel : Kernel} {woken awaited : List Job}

theorem Fed.mem_woken {time : Nat} {job : Job} (fed : kernel.Fed workload woken awaited)
    (submitted : job ∈ Job.ofWorkload workload) (arrived : job.arrival ≤ time)
    (later : ∀ job ∈ awaited, time < job.arrival) : job ∈ woken := by
  have split := mem_arrivals.mpr submitted
  rw [← fed.split, List.mem_append] at split
  rcases split with member | toCome
  · exact member
  · exact absurd arrived (Nat.not_le_of_lt (later job toCome))

theorem Phases.notPending {requeued started worked closed : Machine} {work : Work} {job : Job}
    (phases : Phases workload kernel requeued started work worked closed)
    (fed : kernel.Fed workload woken awaited)
    (later : ∀ job ∈ awaited, kernel.machine.now < job.arrival)
    (submitted : job ∈ Job.ofWorkload workload) (arrived : job.arrival ≤ kernel.machine.now) :
    requeued.phase? job.id ≠ some .pending := by
  intro isPending
  have come := (fed.come job (fed.mem_woken submitted arrived later)).2
  exact come (Machine.phase?_pending_of
    (fun found phase => (phases.requeue.pending job.id found phase).mp) isPending)

/-- Where nobody runs or waits, the woken jobs have got all their service. -/
theorem Fed.workedBefore_eq {time : Nat} {job : Job} (fed : kernel.Fed workload woken awaited)
    (idle : kernel.machine.cpu.current = none) (empty : kernel.machine.ready.ids = [])
    (member : job ∈ woken) (past : ∀ tick ∈ heldTicks kernel.machine.trace job.id, tick < time) :
    workedBefore kernel.machine.trace job.id time = job.service := by
  obtain ⟨found, present, worked, finished_iff⟩ := fed.exists_woken member
  have finished := fed.finished_of_idle idle empty job member
  rw [Machine.phase?_of_job? present, Option.some.injEq, finished_iff] at finished
  rw [Chronological.workedBefore_of_past past]
  omega

theorem maintained_workConserving (workload : List Spec) (scheduler : Scheduler) :
    Maintained workload scheduler fun _ kernel => WorkConserving workload kernel.machine.trace where
  wake := by
    intro history kernel next woken job awaited conserving _ _ wakes held
    obtain ⟨_, _, _, _, _, _, rfl⟩ := wake_ok wakes
    exact held
  tick := by
    intro history kernel woken awaited requeued started work worked closed news
      conserving _ later phases _ nextOrder change held
    have settled := conserving.orderly.settled
    intro time idle job submitted arrived
    rw [change.record, idleTicks_push] at idle
    rcases List.mem_append.mp idle with before | now
    · have past := (settled.chronological.mem_idleTicks.mp before).1
      rw [change.record, Chronological.workedBefore_push (by rw [← settled.elapsed]; omega)]
      exact held time before job submitted arrived
    · cases occupant : started.cpu.current with
      | some id => simp [occupant] at now
      | none =>
          have isNow : time = kernel.machine.now := by simpa [occupant] using now
          subst isNow
          have ⟨nobody, empty⟩ := change.idle occupant
          refine nextOrder.workedBefore_eq nobody empty
            (conserving.mem_woken submitted arrived later) ?_
          rw [change.record, occupant, heldTicks_push_of_ne (by simp), ← settled.elapsed]
          exact fun tick held => settled.chronological.lt_size_of_mem_heldTicks held
  rest := by
    intro history kernel woken awaited ticks _ conserving _ atRest before held
    have settled := conserving.orderly.settled
    intro time idle job submitted arrived
    have sameWork : workedBefore (kernel.rested ticks 0).machine.trace job.id time =
        workedBefore kernel.machine.trace job.id time := by
      rw [Kernel.rested, Machine.rested, workedBefore, heldTicks_append_idleTrace, workedBefore]
    rw [sameWork]
    rw [Kernel.rested, Machine.rested, idleTicks_append_idleTrace] at idle
    rcases List.mem_append.mp idle with earlier | resting
    · exact held time earlier job submitted arrived
    · obtain ⟨fromNow, toEnd⟩ := List.mem_range'_1.mp resting
      have later : ∀ other ∈ awaited, time < other.arrival := fun other member =>
        Nat.lt_of_lt_of_le toEnd (before other member)
      refine conserving.workedBefore_eq atRest.idle atRest.empty
        (conserving.mem_woken submitted arrived later) fun tick isHeld => ?_
      have inTrace := settled.chronological.lt_size_of_mem_heldTicks isHeld
      rw [settled.elapsed] at inTrace
      omega

end Kernel

variable {config : Config} {policy : Policy} {schedule : Schedule}

theorem workConserving_of_simulate (ran : simulate workload config policy = .ok schedule) :
    WorkConserving workload schedule.trace := by
  obtain ⟨scheduler, decides⟩ := exists_scheduler_of_simulate ran
  obtain ⟨last, _, _, _, _, reports, conserves⟩ :=
    (Kernel.maintained_workConserving workload scheduler).simulate decides
      (by simp [WorkConserving, Kernel.initial, Machine.ofWorkload, idleTicks]) ran
  rw [reports.record]
  exact conserves

/-- In a tick in which the CPU rests, no job that has arrived has work left. -/
theorem simulate_workConserving (ran : simulate workload config policy = .ok schedule) :
    ∀ entry ∈ schedule.trace, entry.occupant = none →
      ∀ job ∈ schedule.jobs, job.arrival ≤ entry.time →
        workedBefore schedule.trace job.id entry.time = job.service := by
  intro entry member rests job isJob arrived
  have idle : entry.time ∈ idleTicks schedule.trace := by
    refine List.mem_map.mpr ⟨entry, List.mem_filter.mpr ⟨Array.mem_toList_iff.mpr member, ?_⟩, rfl⟩
    simp [rests]
  exact workConserving_of_simulate ran entry.time idle job.blank (blank_mem_of_simulate ran isJob)
    arrived

/-- The CPU rests in the two ticks before the second job arrives. -/
theorem simulate_workConserving_gap :
    ∃ schedule, simulate [⟨0, 1, 0⟩, ⟨3, 1, 0⟩] { maxTicks := 10 } .sjf = .ok schedule ∧
      schedule.timeline = [some 1, none, none, some 2] ∧
      ∀ entry ∈ schedule.trace, entry.occupant = none →
        ∀ job ∈ schedule.jobs, job.arrival ≤ entry.time →
          workedBefore schedule.trace job.id entry.time = job.service := by
  have runs : (simulate [⟨0, 1, 0⟩, ⟨3, 1, 0⟩] { maxTicks := 10 } .sjf).toOption.map
      Schedule.timeline = some [some 1, none, none, some 2] := by
    decide +kernel
  obtain ⟨schedule, ran, timeline⟩ := exists_of_timeline runs
  exact ⟨schedule, ran, timeline, simulate_workConserving ran⟩

end CpuScheduling
