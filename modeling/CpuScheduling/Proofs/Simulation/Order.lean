import CpuScheduling.Proofs.Simulation.Feed

/-!
The invariant of a run.  Each step takes at least one tick and none beyond the limit,
so the loop ends; it ends at the makespan of the workload, if the limit lets it.
-/

namespace CpuScheduling.Simulation

/-- Some jobs have been fed to the kernel in time, and the others are due; the limit on ticks
may have passed. -/
structure Underway (workload : List Spec) (simulation : Simulation) : Prop where
  conserving : ∃ woken awaited, simulation.kernel.Conserving workload woken awaited ∧
    simulation.pending = awaited.map (·.id)
  limit : simulation.maxTicks < wordSize

structure Orderly (workload : List Spec) (simulation : Simulation) : Prop
    extends Underway workload simulation where
  inTime : simulation.now ≤ simulation.maxTicks
  ends : simulation.allFinished = true → simulation.now = makespan workload

variable {workload : List Spec} {woken awaited : List Job} {kernel : Kernel}
  {simulation : Simulation}

theorem wakeArrived_conserving (conserving : kernel.Conserving workload woken awaited) :
    ∃ next nowWoken nowAwaited,
      wakeArrived kernel (awaited.map (·.id)) = .ok (next, nowAwaited.map (·.id)) ∧
      next.Conserving workload nowWoken nowAwaited ∧
      (∀ job ∈ nowAwaited, next.machine.now < job.arrival) ∧
      next.machine.now = kernel.machine.now ∧ next.scheduler = kernel.scheduler := by
  induction awaited generalizing kernel woken with
  | nil => exact ⟨kernel, woken, [], rfl, conserving, by simp, rfl, rfl⟩
  | cons job rest inductionHypothesis =>
      have present := Machine.job_of_job? (conserving.due job List.mem_cons_self).2
      by_cases come : job.arrival ≤ kernel.machine.now
      · obtain ⟨awake, wakes, conserves, woke⟩ := conserving.wake come
        obtain ⟨next, nowWoken, nowAwaited, others, order, later, sameNow, sameScheduler⟩ :=
          inductionHypothesis conserves
        refine ⟨next, nowWoken, nowAwaited, ?_, order, later, sameNow.trans woke.now,
          sameScheduler.trans woke.scheduler⟩
        simp [wakeArrived, present, come, wakes, others, bind, Except.bind]
      · refine ⟨kernel, woken, job :: rest, ?_, conserving, ?_, rfl, rfl⟩
        · simp [wakeArrived, present, come, bind, Except.bind, pure, Except.pure]
        · intro other member
          have notEarlier := conserving.head_first other member
          omega

theorem skipIdle_conserving {maxTicks : Nat}
    (conserving : kernel.Conserving workload woken awaited) (limit : maxTicks < wordSize) :
    ∃ events next, skipIdle kernel (awaited.map (·.id)) maxTicks = .ok (events, next) ∧
      next.Conserving workload woken awaited ∧ next.scheduler = kernel.scheduler ∧
      kernel.machine.now ≤ next.machine.now ∧
      next.machine.now ≤ max kernel.machine.now maxTicks ∧ (awaited = [] → next = kernel) := by
  cases resting : kernel.machine.cpuIdle && kernel.machine.ready.isEmpty with
  | false =>
      refine ⟨[], kernel, ?_, conserving, rfl, Nat.le_refl _, Nat.le_max_left .., fun _ => rfl⟩
      simp [skipIdle, resting]
  | true =>
      have ⟨noCurrent, noneWaits⟩ := Bool.and_eq_true_iff.mp resting
      have idle : kernel.machine.cpu.current = none := by simpa [Machine.cpuIdle] using noCurrent
      have empty := ReadyQueue.isEmpty_eq_true_iff.mp noneWaits
      cases awaited with
      | nil =>
          refine ⟨[], kernel, ?_, conserving, rfl, Nat.le_refl _, Nat.le_max_left .., fun _ => rfl⟩
          simp [skipIdle, resting]
      | cons job rest =>
          have present := Machine.job_of_job? (conserving.due job List.mem_cons_self).2
          have before : ∀ other ∈ job :: rest, min job.arrival maxTicks ≤ other.arrival := by
            intro other member
            have notEarlier := conserving.head_first other member
            omega
          obtain ⟨events, next, waits, order, scheduler, passes⟩ :=
            conserving.idleUntil idle empty (by omega) before
          refine ⟨events, next, ?_, order, scheduler, by omega, by omega, by simp⟩
          simp [skipIdle, resting, present, waits, bind, Except.bind]

/-- A step takes time, and none beyond the limit. -/
theorem Orderly.step (orderly : simulation.Orderly workload)
    (unfinished : simulation.allFinished = false) (room : simulation.now < simulation.maxTicks) :
    ∃ events next, simulation.step = .ok (events, next) ∧ next.Orderly workload ∧
      simulation.now < next.now ∧ next.maxTicks = simulation.maxTicks ∧
      next.kernel.scheduler = simulation.kernel.scheduler := by
  obtain ⟨woken, awaited, conserving, pending⟩ := orderly.conserving
  have limit := orderly.limit
  have unserved := conserving.lt_makespan unfinished
  obtain ⟨fed, nowWoken, nowAwaited, wakes, fedOrder, later, sameNow, sameScheduler⟩ :=
    wakeArrived_conserving conserving
  have isNow : fed.machine.now = simulation.now := sameNow
  obtain ⟨events, ticked, occupant, ticks, tickedOrder, tick⟩ :=
    fedOrder.tick later (by omega)
  have tickedNow := tick.now
  obtain ⟨idle, next, skips, order, scheduler, passes, inTime, stays⟩ :=
    skipIdle_conserving tickedOrder limit
  refine ⟨events ++ idle, { simulation with kernel := next, pending := nowAwaited.map (·.id) },
    ?_, ⟨⟨⟨nowWoken, nowAwaited, order, rfl⟩, limit⟩, ?_, ?_⟩, ?_, rfl,
    scheduler.trans (tick.scheduler.trans sameScheduler)⟩
  · simp [Simulation.step, unfinished, pending, wakes, ticks, skips, bind, Except.bind, pure,
      Except.pure]
  · change next.machine.now ≤ simulation.maxTicks
    omega
  · intro finished
    obtain ⟨nobodyDue, isPast⟩ := order.makespan_le finished
    have noWait := stays nobodyDue
    subst noWait
    change next.machine.now = makespan workload
    change simulation.now < makespan workload at unserved
    omega
  · change simulation.now < next.machine.now
    omega

end CpuScheduling.Simulation
