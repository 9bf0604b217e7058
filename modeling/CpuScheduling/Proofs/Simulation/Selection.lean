import CpuScheduling.Proofs.Simulation.Unbroken

/-!
How the policies that never take the CPU away select a job: by how much it needs or how much it
matters, and among equals by arrival and id.  Keys of ranks cannot tell apart services from
`2 ^ 63` on, but line-ups can, and the trace of a completed run is theirs.
-/

namespace CpuScheduling

/-- The first job needs less than the second one, or it needs as much and is the earlier one. -/
def Job.Shorter (first second : Job) : Prop :=
  first.service < second.service ∨ first.service = second.service ∧ first.Earlier second

variable {workload : List Spec} {config : Config} {scheduler : Scheduler} {schedule : Schedule}

theorem pairwise_gather (ranked : scheduler.isRanked = true) (workload : List Spec) (time : Nat) :
    ((Lineup.before scheduler (tasksAt workload) time).gather scheduler
      (tasksAt workload time)).waiting.Pairwise fun first second =>
        scheduler.precedes first second :=
  (Lineup.Ordered.before scheduler (tasksAt workload) time).gather (tasksAt workload time) ranked

/-- Shortest job first serves every job without a break and selects the shortest of those that have
arrived, whatever the services. -/
theorem simulate_sjf_selects (ran : simulate workload config .sjf = .ok schedule) :
    schedule.Selects Job.Shorter := by
  refine selects_of_simulate rfl rfl ran (pairwise_gather rfl workload) ?_
  intro first second task other isFirst isSecond different stands
  have order := (Scheduler.precedes_iff rfl).mp stands
  simp only [Scheduler.criterion, isFirst.id, isFirst.arrival, isFirst.remaining, isSecond.id,
    isSecond.arrival, isSecond.remaining] at order
  unfold Job.Shorter Job.Earlier
  omega

/-- Two jobs that take all the ticks there are, one of them longer than a key can tell. -/
theorem simulate_sjf_selects_beyond_keys :
    let workload : List Spec := [⟨0, 0x8000000000000005, 0⟩, ⟨0, 0x7FFFFFFFFFFFFFFA, 0⟩]
    let config : Config := { maxTicks := 0xFFFFFFFFFFFFFFFF }
    ∃ schedule, simulate workload config .sjf = .ok schedule ∧
      schedule.Selects Job.Shorter ∧
      schedule.jobs.map (·.firstStart) = [some 0x7FFFFFFFFFFFFFFA, some 0] := by
  intro workload config
  have length : makespan workload = 0xFFFFFFFFFFFFFFFF := by decide
  obtain ⟨schedule, ran⟩ : ∃ schedule, simulate workload config .sjf = .ok schedule :=
    exists_ok_iff.mpr ⟨by decide, by decide, by decide, length.le⟩
  have selects := simulate_sjf_selects ran
  have size := (chronological_of_simulate ran).2.trans length
  obtain ⟨long, short, jobs, longId, shortId, shortArrival, longService, shortService⟩ :
      ∃ long short, schedule.jobs = [long, short] ∧ long.id = 1 ∧ short.id = 2 ∧
        short.arrival = 0 ∧ long.service = 0x8000000000000005 ∧
        short.service = 0x7FFFFFFFFFFFFFFA :=
    ⟨_, _, jobs_of_simulate ran, rfl, rfl, rfl, rfl, rfl⟩
  obtain ⟨longStart, longServed, afterLong⟩ := selects long (by simp [jobs])
  obtain ⟨shortStart, shortServed, _⟩ := selects short (by simp [jobs])
  have longEnd := longServed.end_le_size
  have waits : shortStart ≤ longStart := by
    by_contra first
    have shorter := afterLong short (by simp [jobs]) (by omega) (by omega)
      shortStart shortServed.firstStart (by omega)
    simp only [Job.Shorter, longService, shortService] at shorter
    omega
  have done := shortServed.le_start longServed (by omega) waits
  refine ⟨schedule, ran, selects, ?_⟩
  rw [jobs, List.map_cons, List.map_singleton, longServed.firstStart, shortServed.firstStart]
  simp only [List.cons.injEq, Option.some.injEq, and_true]
  omega

/-- Priority without preemption serves every job without a break and selects the one that matters
most of those that have arrived. -/
theorem simulate_priority_selects (ran : simulate workload config .priority = .ok schedule) :
    schedule.Selects (Job.Outranks Job.priority) := by
  refine selects_of_simulate rfl rfl ran (pairwise_gather rfl workload) ?_
  intro first second task other isFirst isSecond different stands
  have order := (Scheduler.precedes_iff rfl).mp stands
  simp only [Scheduler.criterion, isFirst.id, isFirst.arrival, isFirst.priority, isSecond.id,
    isSecond.arrival, isSecond.priority] at order
  unfold Job.Outranks
  omega

/-- A job that comes first keeps the CPU although others matter more; of these the one that matters
most is next. -/
theorem simulate_priority_selects_after_first :
    ∃ schedule, simulate [⟨0, 3, 1⟩, ⟨1, 2, 5⟩, ⟨1, 1, 5⟩, ⟨2, 1, 7⟩] {} .priority = .ok schedule ∧
      schedule.timeline = [some 1, some 1, some 1, some 4, some 2, some 2, some 3] ∧
      schedule.Selects (Job.Outranks Job.priority) := by
  have runs : (simulate [⟨0, 3, 1⟩, ⟨1, 2, 5⟩, ⟨1, 1, 5⟩, ⟨2, 1, 7⟩] {} .priority).toOption.map
      Schedule.timeline = some [some 1, some 1, some 1, some 4, some 2, some 2, some 3] := by
    decide +kernel
  obtain ⟨schedule, ran, timeline⟩ := exists_of_timeline runs
  exact ⟨schedule, ran, timeline, simulate_priority_selects ran⟩

end CpuScheduling
