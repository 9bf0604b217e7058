import CpuScheduling.Proofs.Machine.Operations

/-!
A tick of work: the trace gets its entry, the job on the CPU works, and it
completes once no work is left.  The books are then kept one tick ahead of the
time that the machine shows.
-/

namespace CpuScheduling.Machine

/-- A tick of the books: the trace gets an entry for the occupant of the CPU, and no
count grows by more than one, but for the CPU being given away. -/
structure Worked (starts : Nat) (occupant : Option Nat) (before after : Machine) : Prop where
  now : after.now = before.now
  record : after.trace = before.trace.push ⟨before.now, occupant⟩
  fixesWaiting : after.fixesWaiting = before.fixesWaiting
  finished : after.finished ≤ before.finished + 1
  switches : after.switches ≤ before.switches + starts
  sliceUsed : after.cpu.sliceUsed ≤ before.cpu.sliceUsed + 1
  sliceExpired : after.cpu.sliceExpired = true →
    before.cpu.sliceExpired = true ∨ before.fixesWaiting = false
  pending : ∀ id job, job.phase = .pending →
    (after.job? id = some job ↔ before.job? id = some job)

theorem Instant.work {starts more : Nat} {occupant : Option Nat} {before middle after : Machine}
    (early : Instant starts before middle) (tick : Worked more occupant middle after) :
    Worked (starts + more) occupant before after where
  now := tick.now.trans early.now
  record := by rw [tick.record, early.record, early.now]
  fixesWaiting := tick.fixesWaiting.trans early.fixesWaiting
  finished := early.finished ▸ tick.finished
  switches := by
    have earlySwitches := early.switches
    have tickSwitches := tick.switches
    omega
  sliceUsed := Nat.le_trans tick.sliceUsed (Nat.succ_le_succ early.sliceUsed)
  sliceExpired := expired_trans early.sliceExpired tick.sliceExpired early.fixesWaiting
  pending id job isPending := (tick.pending id job isPending).trans (early.pending id job isPending)

theorem Worked.close {starts more : Nat} {occupant : Option Nat} {before middle after : Machine}
    (tick : Worked starts occupant before middle) (late : Instant more middle after) :
    Worked (starts + more) occupant before after where
  now := late.now.trans tick.now
  record := late.record.trans tick.record
  fixesWaiting := late.fixesWaiting.trans tick.fixesWaiting
  finished := late.finished ▸ tick.finished
  switches := by
    have tickSwitches := tick.switches
    have lateSwitches := late.switches
    omega
  sliceUsed := Nat.le_trans late.sliceUsed tick.sliceUsed
  sliceExpired := expired_trans tick.sliceExpired late.sliceExpired tick.fixesWaiting
  pending id job isPending := (late.pending id job isPending).trans (tick.pending id job isPending)

variable {workload : List Spec} {machine : Machine} {id : Nat} {old : Job}

theorem recordTrace_busy (current : machine.cpu.current = some id) :
    machine.recordTrace =
      { machine with trace := machine.trace.push ⟨machine.now, some id⟩ } := by
  simp [recordTrace, current]

theorem recordTrace_idle (idle : machine.cpu.current = none) :
    machine.recordTrace =
      { machine with trace := machine.trace.push ⟨machine.now, none⟩ }.emit (.cpuIdle 1) := by
  simp [recordTrace, idle]

theorem runCurrent_idle (idle : machine.cpu.current = none) :
    machine.runCurrent = .ok (.idle, machine) := by
  simp [runCurrent, idle, pure, Except.pure]

theorem runCurrent_ran (current : machine.cpu.current = some id)
    (present : machine.job? id = some old) (room : machine.cpu.sliceUsed + 1 < wordSize)
    (leaves : old.remaining - 1 ≠ 0) :
    machine.runCurrent = .ok (.ran id,
      { machine.put id { old with remaining := old.remaining - 1 } with
        cpu := { machine.cpu with sliceUsed := machine.cpu.sliceUsed + 1 } }) := by
  have counted := increment_eq_ok_iff.mpr ⟨room, rfl⟩
  have hasWork : 0 < old.remaining := by omega
  simp [runCurrent, current, counted, job_of_job? present, ensure, hasWork, leaves, bind,
    Except.bind, pure, Except.pure, put]

theorem runCurrent_completed {completed : Job} (current : machine.cpu.current = some id)
    (present : machine.job? id = some old) (lastTick : old.remaining = 1)
    (booked : completeBooks (machine.now + 1) { old with remaining := old.remaining - 1 } =
      .ok completed)
    (slice : machine.cpu.sliceUsed + 1 < wordSize) (time : machine.now + 1 < wordSize)
    (finishes : machine.finished + 1 < wordSize) :
    machine.runCurrent = .ok (.completed id, Machine.emit
      { machine.put id completed with
        finished := machine.finished + 1
        cpu := { last := machine.cpu.last } } (.complete id (machine.now + 1))) := by
  have sliceCounted := increment_eq_ok_iff.mpr ⟨slice, rfl⟩
  have timeCounted := increment_eq_ok_iff.mpr ⟨time, rfl⟩
  have finishCounted := increment_eq_ok_iff.mpr ⟨finishes, rfl⟩
  rw [lastTick, Nat.sub_self] at booked
  simp [runCurrent, current, sliceCounted, timeCounted, finishCounted, job_of_job? present,
    ensure, lastTick, booked, bind, Except.bind, pure, Except.pure, put]

namespace Orderly

variable (orderly : machine.Orderly workload machine.now [])
  (elapsed : machine.trace.size = machine.now)

include orderly elapsed

theorem workIdle (idle : machine.cpu.current = none) :
    ∃ next, machine.recordTrace.runCurrent = .ok (.idle, next) ∧
      next.Orderly workload (machine.now + 1) [] ∧ Worked 0 none machine next ∧
      next.ready = machine.ready ∧ next.cpu = machine.cpu := by
  have booked := orderly.toBooked.tickIdle (orderly.nobody_runs idle) elapsed
  rw [recordTrace_idle idle]
  refine ⟨_, runCurrent_idle idle, ⟨booked.of_same rfl rfl rfl rfl, orderly.placement⟩, ?_,
    rfl, rfl⟩
  exact ⟨rfl, rfl, rfl, Nat.le_succ _, Nat.le_refl _, Nat.le_succ _, .inl, fun _ _ _ => Iff.rfl⟩

theorem workOn (current : machine.cpu.current = some id) (present : machine.job? id = some old)
    (isRunning : old.phase = .running) (slice : machine.cpu.sliceUsed + 1 < wordSize)
    (leaves : old.remaining - 1 ≠ 0) :
    ∃ next, machine.recordTrace.runCurrent = .ok (.ran id, next) ∧
      next.Orderly workload (machine.now + 1) [] ∧ Worked 0 (some id) machine next ∧
      next.ready = machine.ready ∧ next.cpu.current = some id := by
  have balanced := (orderly.balanced id old present).work isRunning leaves
  have booked := orderly.toBooked.tickWork (orderly.running_unique current) elapsed present
    (by simp [isRunning]) balanced rfl
  rw [recordTrace_busy current]
  refine ⟨_, runCurrent_ran current present slice leaves, ⟨?_, ?_⟩, ?_, rfl, current⟩
  · exact booked.of_same rfl rfl rfl (by simp [isRunning, put])
  · apply orderly.placement.congr
    intro other
    have moved :=
      phase?_put_of_phase present { old with remaining := old.remaining - 1 } isRunning other
    refine Eq.trans moved ?_
    split
    next here => rw [here, phase?_of_job? present, isRunning]
    next => rfl
  · refine ⟨rfl, rfl, rfl, Nat.le_succ _, Nat.le_refl _, Nat.le_refl _, .inl, ?_⟩
    exact pending_put present (by simp [isRunning]) (by simp [isRunning])

theorem workLast (current : machine.cpu.current = some id) (present : machine.job? id = some old)
    (isRunning : old.phase = .running) (lastTick : old.remaining = 1)
    (slice : machine.cpu.sliceUsed + 1 < wordSize) (time : machine.now + 1 < wordSize)
    (finishes : machine.finished + 1 < wordSize) :
    ∃ next, machine.recordTrace.runCurrent = .ok (.completed id, next) ∧
      next.Orderly workload (machine.now + 1) [] ∧ Worked 0 (some id) machine next ∧
      next.ready = machine.ready ∧ next.cpu.current = none := by
  obtain ⟨completed, books, balanced, isFinished, same⟩ :=
    (orderly.balanced id old present).completeBooks isRunning lastTick
  have booked := orderly.toBooked.tickWork (orderly.running_unique current) elapsed present
    (by simp [isRunning]) balanced same
  rw [recordTrace_busy current]
  refine ⟨_, runCurrent_completed current present lastTick books slice time finishes,
    ⟨?_, ?_⟩, ?_, rfl, rfl⟩
  · exact booked.of_same rfl rfl rfl (by simp [isFinished, Machine.emit])
  · exact (current ▸ orderly.placement).finish (phase?_put_of_phase present completed isFinished)
  · refine ⟨rfl, rfl, rfl, Nat.le_refl _, Nat.le_refl _, Nat.zero_le _, by simp [Machine.emit], ?_⟩
    exact pending_put present (by simp [isRunning]) (by simp [isFinished])

theorem work (slice : machine.cpu.sliceUsed + 1 < wordSize) (time : machine.now + 1 < wordSize)
    (finishes : machine.finished + 1 < wordSize) :
    ∃ work next, machine.recordTrace.runCurrent = .ok (work, next) ∧
      next.Orderly workload (machine.now + 1) [] ∧ Worked 0 machine.cpu.current machine next ∧
      next.ready = machine.ready ∧
      (∀ id, next.cpu.current = some id → machine.cpu.current = some id) := by
  cases current : machine.cpu.current with
  | none =>
      obtain ⟨next, works, order, tick, ready, cpu⟩ := orderly.workIdle elapsed current
      exact ⟨.idle, next, works, order, tick, ready, by simp [cpu, current]⟩
  | some id =>
      obtain ⟨job, present, isRunning⟩ := orderly.exists_current current
      have hasWork := (orderly.balanced id job present).remaining_pos (by simp [isRunning])
      by_cases lastTick : job.remaining = 1
      · obtain ⟨next, works, order, tick, ready, idle⟩ :=
          orderly.workLast elapsed current present isRunning lastTick slice time finishes
        exact ⟨.completed id, next, works, order, tick, ready, by simp [idle]⟩
      · obtain ⟨next, works, order, tick, ready, stays⟩ :=
          orderly.workOn elapsed current present isRunning slice (by omega)
        exact ⟨.ran id, next, works, order, tick, ready, by simp [stays]⟩

end Orderly

theorem idleUntil_later (idle : machine.cpu.current = none) {time : Nat}
    (later : machine.now < time) :
    machine.idleUntil time = .ok (Machine.emit
      { machine with
        trace := machine.trace ++ idleTrace machine.now (time - machine.now)
        now := time } (.cpuIdle (time - machine.now))) := by
  have notCome : ¬time ≤ machine.now := by omega
  simp [idleUntil, idle, notCome, ensure, bind, Except.bind, pure, Except.pure]

theorem idleUntil_come {time : Nat} (come : time ≤ machine.now) :
    machine.idleUntil time = .ok machine := by
  simp [idleUntil, come, pure, Except.pure]

structure Idled (time : Nat) (before after : Machine) : Prop where
  now : after.now = max before.now time
  record : after.trace = before.trace ++ idleTrace before.now (time - before.now)
  jobs : after.jobs = before.jobs
  fixesWaiting : after.fixesWaiting = before.fixesWaiting
  ready : after.ready = before.ready
  cpu : after.cpu = before.cpu
  switches : after.switches = before.switches
  finished : after.finished = before.finished

theorem Orderly.idleUntil (orderly : machine.Orderly workload machine.now [])
    (elapsed : machine.trace.size = machine.now) {time : Nat}
    (allowed : machine.cpu.current = none ∨ time ≤ machine.now) :
    ∃ next, machine.idleUntil time = .ok next ∧ next.Orderly workload next.now [] ∧
      Idled time machine next := by
  by_cases come : time ≤ machine.now
  · refine ⟨machine, idleUntil_come come, orderly, ?_⟩
    have nothing : time - machine.now = 0 := by omega
    exact ⟨by omega, by simp [nothing, idleTrace], rfl, rfl, rfl, rfl, rfl, rfl⟩
  · have idle := allowed.resolve_right come
    have later : machine.now < time := by omega
    have waited := orderly.toBooked.idle (orderly.nobody_runs idle) elapsed (time - machine.now)
    have untilTime : machine.now + (time - machine.now) = time := by omega
    rw [untilTime] at waited
    refine ⟨_, idleUntil_later idle later, ⟨waited.of_same rfl rfl rfl rfl, orderly.placement⟩, ?_⟩
    exact ⟨by simp [Machine.emit]; omega, rfl, rfl, rfl, rfl, rfl, rfl, rfl⟩

/-- The machine shows the next tick once the books are kept up to it. -/
theorem Orderly.advance {clock : Nat} (orderly : machine.Orderly workload clock [])
    (next : clock = machine.now + 1) (room : clock < wordSize) :
    (machine.advance 1).Orderly workload (machine.advance 1).now [] ∧
      (machine.advance 1).now = clock := by
  have shown : (machine.advance 1).now = clock := by
    simp only [Machine.advance]
    omega
  exact ⟨shown ▸ ⟨orderly.toBooked.of_same rfl rfl rfl rfl, orderly.placement⟩, shown⟩

end CpuScheduling.Machine
