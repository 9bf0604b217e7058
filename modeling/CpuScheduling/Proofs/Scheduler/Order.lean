import CpuScheduling.Proofs.Machine.Work
import CpuScheduling.Scheduler

/-!
Every policy keeps the machine in order.  Before a tick the job whose slice ran
out is queued again and the CPU is given away; a CPU that stays idle leaves
nobody waiting.  After the tick of work a slice may end.
-/

namespace CpuScheduling.Scheduler

open Machine (Instant)

variable {workload : List Spec} {clock : Nat} {limbo : List Nat} {machine : Machine} {id : Nat}
  (scheduler : Scheduler)

theorem enqueue_orderly (orderly : machine.Orderly workload clock (id :: limbo)) :
    ∃ next, scheduler.enqueue machine id = .ok next ∧ next.Orderly workload clock limbo ∧
      Instant 0 machine next ∧ next.cpu = machine.cpu := by
  obtain ⟨job, present, _⟩ := orderly.exists_job?
  obtain ⟨ready, entered, order⟩ := orderly.enqueue (scheduler.rank job)
  refine ⟨_, ?_, order, .requeue machine ready, rfl⟩
  simp [enqueue, Machine.job_of_job? present, entered, bind, Except.bind]

theorem restorePriority_orderly (orderly : machine.Orderly workload clock (id :: limbo)) :
    ∃ next, scheduler.restorePriority machine id = .ok next ∧
      next.Orderly workload clock (id :: limbo) ∧ Instant 0 machine next ∧
      next.cpu = machine.cpu := by
  obtain ⟨job, present, isReady⟩ := orderly.exists_job?
  cases scheduler with
  | agingRoundRobin quantum step =>
      refine ⟨machine.put id { job with effectivePriority := job.priority }, ?_,
        orderly.reprioritize present _, .reprioritize present (by simp [isReady]) _, rfl⟩
      simp [restorePriority, Machine.job_of_job? present, bind, Except.bind, pure, Except.pure]
  | _ => exact ⟨machine, rfl, orderly, .refl machine, rfl⟩

theorem fillCpu_orderly (orderly : machine.Orderly workload machine.now [])
    (idle : machine.cpu.current = none) (room : machine.switches + 1 < wordSize) :
    ∃ next, scheduler.fillCpu machine = .ok next ∧ next.Orderly workload machine.now [] ∧
      Instant 1 machine next ∧ (next.cpu.current = none → next.ready.ids = []) := by
  cases picked : machine.ready.peek with
  | none =>
      have nobody := ReadyQueue.peek_eq_none_iff.mp picked
      have left := machine.ready.ids_tail_perm
      rw [nobody] at left
      have leftEmpty : machine.ready.tail.ids = [] := left.eq_nil
      refine ⟨{ machine with ready := machine.ready.tail }, ?_, ?_, ?_, fun _ => leftEmpty⟩
      · simp [fillCpu, Machine.pop, ReadyQueue.pop, picked]
      · exact orderly.requeue (by simp [leftEmpty, nobody])
      · exact (Instant.requeue machine machine.ready.tail).mono (Nat.zero_le 1)
  | some id =>
      have popped := orderly.pop picked
      obtain ⟨restored, restores, order, change, sameCpu⟩ :=
        scheduler.restorePriority_orderly popped
      have fromMachine := (Instant.requeue machine machine.ready.tail).trans change
      have stillIdle : restored.cpu.current = none := sameCpu ▸ idle
      have stillRoom : restored.switches + 1 < wordSize :=
        Nat.lt_of_le_of_lt (Nat.succ_le_succ fromMachine.switches) room
      obtain ⟨next, starts, started, dispatch, current⟩ :=
        order.start fromMachine.now stillIdle stillRoom
      refine ⟨next, ?_, started, fromMachine.trans dispatch, by simp [current]⟩
      have isPop : machine.pop = (some id, machine.pop.2) := by
        simp [Machine.pop, ReadyQueue.pop, picked]
      rw [fillCpu, isPop]
      simp [restores, starts, bind, Except.bind]

theorem contest_orderly (settled : machine.Settled workload)
    (current : machine.cpu.current = some id) (slicing : machine.fixesWaiting = false)
    (room : machine.switches + 1 < wordSize) :
    ∃ next, scheduler.contest machine id = .ok next ∧ next.Orderly workload machine.now [] ∧
      Instant 1 machine next ∧ next.cpu.current ≠ none := by
  have unchanged := (Instant.refl machine).mono (Nat.zero_le 1)
  have busy : machine.cpu.current ≠ none := by simp [current]
  cases picked : machine.ready.peek with
  | none =>
      refine ⟨machine, ?_, settled.toOrderly, unchanged, busy⟩
      simp [contest, picked]
  | some candidateId =>
      have popped := settled.toOrderly.pop picked
      obtain ⟨candidate, isCandidate, _⟩ := popped.exists_job?
      obtain ⟨job, present, _⟩ := settled.exists_current current
      have found := Machine.job_of_job? present
      have foundCandidate : machine.job candidateId = .ok candidate :=
        Machine.job_of_job? isCandidate
      cases wins : scheduler.displaces candidate job with
      | false =>
          refine ⟨machine, ?_, settled.toOrderly, unchanged, busy⟩
          simp [contest, picked, found, foundCandidate, wins, bind, Except.bind, pure, Except.pure]
      | true =>
          obtain ⟨displaced, preempts, left, leaving, idle⟩ :=
            popped.preempt current slicing (settled.traced id current) candidateId
          obtain ⟨queued, enters, waits, entering, sameCpu⟩ := scheduler.enqueue_orderly left
          have change :=
            ((Instant.requeue machine machine.ready.tail).trans leaving).trans entering
          have stillRoom : queued.switches + 1 < wordSize :=
            Nat.lt_of_le_of_lt (Nat.succ_le_succ change.switches) room
          obtain ⟨next, starts, started, dispatch, nextCurrent⟩ :=
            waits.start change.now (sameCpu ▸ idle) stillRoom
          refine ⟨next, ?_, started, change.trans dispatch, by simp [nextCurrent]⟩
          simp [contest, picked, found, foundCandidate, wins, preempts, enters, starts, bind,
            Except.bind]

/-- After a dispatch the CPU is idle only if nobody waits. -/
theorem dispatch_orderly (settled : machine.Settled workload)
    (fixes : machine.fixesWaiting = !scheduler.isPreemptive)
    (room : machine.switches + 1 < wordSize) :
    ∃ next, scheduler.dispatch machine = .ok next ∧ next.Orderly workload machine.now [] ∧
      Instant 1 machine next ∧ (next.cpu.current = none → next.ready.ids = []) := by
  cases current : machine.cpu.current with
  | none =>
      obtain ⟨next, fills, order, change, idle⟩ :=
        scheduler.fillCpu_orderly settled.toOrderly current room
      exact ⟨next, by simp [dispatch, current, fills], order, change, idle⟩
  | some id =>
      have keeps : scheduler.dispatch machine = .ok machine →
          ∃ next, scheduler.dispatch machine = .ok next ∧
            next.Orderly workload machine.now [] ∧ Instant 1 machine next ∧
            (next.cpu.current = none → next.ready.ids = []) := fun same =>
        ⟨machine, same, settled.toOrderly, (Instant.refl machine).mono (Nat.zero_le 1),
          by simp [current]⟩
      have contests (slicing : machine.fixesWaiting = false) :
          ∃ next, scheduler.contest machine id = .ok next ∧
            next.Orderly workload machine.now [] ∧ Instant 1 machine next ∧
            (next.cpu.current = none → next.ready.ids = []) := by
        obtain ⟨next, contested, order, change, busy⟩ :=
          scheduler.contest_orderly settled current slicing room
        exact ⟨next, contested, order, change, fun idle => absurd idle busy⟩
      cases scheduler with
      | srtf | preemptivePriority =>
          simpa [dispatch, current] using contests (by simpa [isPreemptive] using fixes)
      | _ => exact keeps (by simp [dispatch, current])

theorem requeueExpired_settled (settled : machine.Settled workload)
    (sliced : machine.cpu.sliceExpired = true → machine.fixesWaiting = false) :
    ∃ next, scheduler.requeueExpired machine = .ok next ∧ next.Settled workload ∧
      Instant 0 machine next := by
  cases expired : machine.cpu.sliceExpired with
  | false =>
      refine ⟨machine, ?_, settled, .refl machine⟩
      simp [requeueExpired, Machine.expireSlice, expired, bind, Except.bind, pure, Except.pure]
  | true =>
      cases current : machine.cpu.current with
      | none =>
          refine ⟨machine, ?_, settled, .refl machine⟩
          simp [requeueExpired, Machine.expireSlice, expired, current, bind, Except.bind, pure,
            Except.pure]
      | some id =>
          obtain ⟨left, expires, order, leaving, idle⟩ :=
            settled.toOrderly.expireSlice current expired (sliced expired)
              (settled.traced id current)
          obtain ⟨next, enters, waits, entering, sameCpu⟩ := scheduler.enqueue_orderly order
          have change := leaving.trans entering
          refine ⟨next, ?_, ⟨change.now ▸ waits, ?_, ?_⟩, change⟩
          · simp [requeueExpired, expires, enters, bind, Except.bind]
          · rw [change.record, change.now, settled.elapsed]
          · simp [sameCpu, idle]

theorem age_orderly (orderly : machine.Orderly workload clock [])
    (queued : id ∈ machine.ready.ids) (step : Nat) :
    ∃ next, scheduler.age step machine id = .ok next ∧ next.Orderly workload clock [] ∧
      Instant 0 machine next ∧ next.cpu = machine.cpu ∧
      next.ready.ids.Perm machine.ready.ids := by
  obtain ⟨job, present, isReady⟩ :=
    Machine.phase?_eq_some_iff.mp ((orderly.placement.mem_iff id).mp queued)
  have aged := orderly.reprioritize present (min (job.effectivePriority + step) (prioritySize - 1))
  have samePlaces := machine.ready.ids_rerank_perm id (scheduler.rank
    { job with effectivePriority := min (job.effectivePriority + step) (prioritySize - 1) })
  refine ⟨_, ?_, aged.requeue samePlaces, ?_, rfl, samePlaces⟩
  · simp [age, Machine.job_of_job? present, Machine.put, bind, Except.bind, pure, Except.pure]
  · have reprioritized := Instant.reprioritize present (by simp [isReady])
      (min (job.effectivePriority + step) (prioritySize - 1))
    exact reprioritized.trans (.requeue _ _)

theorem ageAll_orderly (step : Nat) (aging : List Nat)
    (orderly : machine.Orderly workload clock []) (queued : ∀ id ∈ aging, id ∈ machine.ready.ids) :
    ∃ next, aging.foldlM (scheduler.age step) machine = .ok next ∧
      next.Orderly workload clock [] ∧ Instant 0 machine next ∧ next.cpu = machine.cpu ∧
      next.ready.ids.Perm machine.ready.ids := by
  induction aging generalizing machine with
  | nil => exact ⟨machine, rfl, orderly, .refl machine, rfl, .refl _⟩
  | cons id rest inductionHypothesis =>
      obtain ⟨aged, ages, agedOrder, change, sameCpu, samePlaces⟩ :=
        scheduler.age_orderly orderly (queued id List.mem_cons_self) step
      have stillQueued : ∀ other ∈ rest, other ∈ aged.ready.ids := fun other member =>
        samePlaces.mem_iff.mpr (queued other (List.mem_cons_of_mem id member))
      obtain ⟨next, others, order, later, cpu, places⟩ := inductionHypothesis agedOrder stillQueued
      refine ⟨next, ?_, order, change.trans later, cpu.trans sameCpu, places.trans samePlaces⟩
      simp [List.foldlM_cons, ages, others, bind, Except.bind]

theorem endSlice_orderly (orderly : machine.Orderly workload clock []) :
    ∃ next, scheduler.endSlice machine = .ok next ∧ next.Orderly workload clock [] ∧
      Instant 0 machine next ∧ next.cpu = machine.cpu ∧
      next.ready.ids.Perm machine.ready.ids := by
  have unchanged : machine.Orderly workload clock [] ∧ Instant 0 machine machine ∧
      machine.cpu = machine.cpu ∧ machine.ready.ids.Perm machine.ready.ids :=
    ⟨orderly, .refl machine, rfl, .refl _⟩
  cases scheduler with
  | agingRoundRobin quantum step =>
      by_cases noStep : step = 0
      · exact ⟨machine, by simp [endSlice, noStep], unchanged⟩
      · obtain ⟨next, ages, order⟩ :=
          (agingRoundRobin quantum step).ageAll_orderly step machine.ready.ids orderly
            fun _ member => member
        exact ⟨next, by simp [endSlice, noStep, ages], order⟩
  | _ => exact ⟨machine, rfl, unchanged⟩

theorem isPreemptive_of_quantum? {quantum : Nat} (slices : scheduler.quantum? = some quantum) :
    scheduler.isPreemptive = true := by
  cases scheduler <;> simp_all [quantum?, isPreemptive]

theorem markExpired_instant (slicing : machine.fixesWaiting = false) :
    Instant 0 machine machine.markExpired :=
  ⟨rfl, rfl, rfl, rfl, Nat.le_refl _, Nat.le_refl _, fun _ => .inr slicing, fun _ _ _ => Iff.rfl⟩

theorem closeTick_orderly (orderly : machine.Orderly workload clock [])
    (fixes : machine.fixesWaiting = !scheduler.isPreemptive) (work : Work) :
    ∃ next, scheduler.closeTick work machine = .ok next ∧ next.Orderly workload clock [] ∧
      Instant 0 machine next ∧ next.cpu.current = machine.cpu.current ∧
      next.ready.ids.Perm machine.ready.ids := by
  cases work with
  | idle => exact ⟨machine, rfl, orderly, .refl machine, rfl, .refl _⟩
  | completed id =>
      obtain ⟨next, ends, order, change, sameCpu, places⟩ := scheduler.endSlice_orderly orderly
      exact ⟨next, ends, order, change, by rw [sameCpu], places⟩
  | ran id =>
      cases slices : scheduler.quantum? with
      | none =>
          refine ⟨machine, ?_, orderly, .refl machine, rfl, .refl _⟩
          simp [closeTick, slices]
      | some quantum =>
          by_cases usedUp : quantum ≤ machine.cpu.sliceUsed
          · have marked : machine.markExpired.Orderly workload clock [] :=
              ⟨orderly.toBooked.of_same rfl rfl rfl rfl, orderly.placement⟩
            have slicing : machine.fixesWaiting = false := by
              simp [fixes, scheduler.isPreemptive_of_quantum? slices]
            obtain ⟨next, ends, order, change, sameCpu, places⟩ :=
              scheduler.endSlice_orderly marked
            refine ⟨next, ?_, order, (markExpired_instant slicing).trans change, ?_, places⟩
            · simp [closeTick, slices, usedUp, ends]
            · rw [sameCpu]
              rfl
          · refine ⟨machine, ?_, orderly, .refl machine, rfl, .refl _⟩
            simp [closeTick, slices, usedUp]

end CpuScheduling.Scheduler
