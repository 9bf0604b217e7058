import CpuScheduling.Proofs.Kernel.IdleWait
import CpuScheduling.Proofs.Simulation.Order

/-!
What a step of a run does when it succeeds: it wakes the jobs that have arrived, lets a
tick pass and, if there is nothing to do, waits.
-/

namespace CpuScheduling.Simulation

variable {workload : List Spec} {simulation next : Simulation} {events : List Event}

theorem wakeArrived_keeps {holds : Kernel → Prop} {kernel fed : Kernel} {pending rest : List Nat}
    (keeps : ∀ early late id, early.wake id = .ok late → holds early → holds late)
    (wakes : wakeArrived kernel pending = .ok (fed, rest)) (held : holds kernel) : holds fed := by
  induction pending generalizing kernel with
  | nil =>
      cases wakes
      exact held
  | cons id others inductionHypothesis =>
      obtain ⟨_, _, wakesOn⟩ := bind_eq_ok_iff.mp wakes
      split at wakesOn
      next =>
        obtain ⟨awake, wakesOne, wakesRest⟩ := bind_eq_ok_iff.mp wakesOn
        exact inductionHypothesis wakesRest (keeps kernel awake id wakesOne held)
      next =>
        cases wakesOn
        exact held

/-- There is nothing to wait for, or the CPU rests until the next arrival or the limit. -/
theorem skipIdle_ok {kernel rested : Kernel} {pending : List Nat} {maxTicks : Nat}
    (collected : kernel.machine.events = [])
    (skips : skipIdle kernel pending maxTicks = .ok (events, rested)) :
    (events = [] ∧ rested = kernel) ∨
      ∃ id rest job ticks, kernel.AtRest ∧ pending = id :: rest ∧
        kernel.machine.job? id = some job ∧ 0 < ticks ∧
        kernel.machine.now + ticks = min job.arrival maxTicks ∧
        events = [.cpuIdle ticks] ∧ rested = kernel.rested ticks 0 := by
  unfold skipIdle at skips
  split at skips
  next resting =>
    obtain ⟨noCurrent, noneWaits⟩ := Bool.and_eq_true_iff.mp resting
    have idle : kernel.machine.cpu.current = none := by simpa [Machine.cpuIdle] using noCurrent
    have empty := ReadyQueue.isEmpty_eq_true_iff.mp noneWaits
    cases pending with
    | nil =>
        cases skips
        exact .inl ⟨rfl, rfl⟩
    | cons id rest =>
        obtain ⟨job, isJob, waits⟩ := bind_eq_ok_iff.mp skips
        have present := Machine.job_eq_ok_iff.mp isJob
        have atRest : kernel.AtRest := ⟨idle, empty, collected⟩
        rcases Nat.lt_or_ge kernel.machine.now (min job.arrival maxTicks) with later | come
        · obtain ⟨ticks, target⟩ := Nat.exists_eq_add_of_lt later
          rw [target, Nat.add_assoc, atRest.idleUntil (Nat.succ_pos ticks)] at waits
          cases waits
          exact .inr ⟨id, rest, job, ticks + 1, atRest, rfl, present, Nat.succ_pos ticks,
            target.symm, rfl, rfl⟩
        · rw [Kernel.idleUntil, Machine.idleUntil_come come] at waits
          cases waits
          refine .inl ⟨collected, ?_⟩
          cases kernel with
          | mk machine scheduler audits =>
              have noEvent : machine.events = [] := collected
              simp [← noEvent]
  next =>
    cases skips
    exact .inl ⟨rfl, rfl⟩

structure Stages (workload : List Spec) (simulation : Simulation) (woken awaited : List Job)
    (fed ticked : Kernel) (news idle : List Event) (rested : Kernel) : Prop where
  feeds : wakeArrived simulation.kernel simulation.pending = .ok (fed, awaited.map (·.id))
  fedOrder : fed.Conserving workload woken awaited
  later : ∀ job ∈ awaited, fed.machine.now < job.arrival
  sameNow : fed.machine.now = simulation.now
  sameScheduler : fed.scheduler = simulation.kernel.scheduler
  ticks : fed.tick = .ok (news, ticked)
  tickedOrder : ticked.Conserving workload woken awaited
  tickedNow : ticked.machine.now = simulation.now + 1
  tickedScheduler : ticked.scheduler = simulation.kernel.scheduler
  waits : skipIdle ticked (awaited.map (·.id)) simulation.maxTicks = .ok (idle, rested)

theorem Underway.exists_stages (underway : simulation.Underway workload)
    (unfinished : simulation.allFinished = false) (steps : simulation.step = .ok (events, next)) :
    ∃ woken awaited fed ticked news idle rested,
      Stages workload simulation woken awaited fed ticked news idle rested ∧
      events = news ++ idle ∧
      next = { simulation with kernel := rested, pending := awaited.map (·.id) } ∧
      next.Underway workload := by
  obtain ⟨before, due, conserving, pending⟩ := underway.conserving
  have limit := underway.limit
  obtain ⟨fed, woken, awaited, feeds, fedOrder, later, sameNow, sameScheduler⟩ :=
    wakeArrived_conserving conserving
  have isNow : fed.machine.now = simulation.now := sameNow
  have notWaiting : ¬simulation.allFinished = true := by simp [unfinished]
  rw [← pending] at feeds
  rw [Simulation.step, if_neg notWaiting, feeds] at steps
  obtain ⟨_, isFed, tickAndWait⟩ := bind_eq_ok_iff.mp steps
  cases isFed
  obtain ⟨_, isTick, wait⟩ := bind_eq_ok_iff.mp tickAndWait
  have room := fedOrder.orderly.room_of_tick isTick
  obtain ⟨news, ticked, occupant, ticks, tickedOrder, tick⟩ := fedOrder.tick later room
  have tickedNow := tick.now
  cases ticks.symm.trans isTick
  obtain ⟨⟨idle, rested⟩, waits, isNext⟩ := bind_eq_ok_iff.mp wait
  cases isNext
  obtain ⟨_, _, skips, restedOrder, _⟩ := skipIdle_conserving tickedOrder limit
  cases skips.symm.trans waits
  exact ⟨woken, awaited, fed, ticked, news, idle, rested, {
    feeds := feeds
    fedOrder := fedOrder
    later := later
    sameNow := isNow
    sameScheduler := sameScheduler
    ticks := ticks
    tickedOrder := tickedOrder
    tickedNow := by omega
    tickedScheduler := tick.scheduler.trans sameScheduler
    waits := waits }, rfl, rfl, ⟨⟨woken, awaited, restedOrder, rfl⟩, limit⟩⟩

end CpuScheduling.Simulation
