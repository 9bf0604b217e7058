import CpuScheduling.Kernel
import CpuScheduling.Proofs.Machine.Audit
import CpuScheduling.Proofs.Scheduler.Order

/-!
The invariant of the kernel.  Between two calls the machine is settled, and no
counter has moved on faster than the clock; so as long as the clock fits into its
word, nothing overflows.
-/

namespace CpuScheduling

open Machine (Instant Worked)

namespace Kernel

structure Orderly (workload : List Spec) (kernel : Kernel) : Prop where
  settled : kernel.machine.Settled workload
  fixes : kernel.machine.fixesWaiting = !kernel.scheduler.isPreemptive
  sliced : kernel.machine.cpu.sliceExpired = true → kernel.machine.fixesWaiting = false
  room : kernel.machine.now < wordSize
  switches : kernel.machine.switches ≤ kernel.machine.now
  sliceUsed : kernel.machine.cpu.sliceUsed ≤ kernel.machine.now
  finished : kernel.machine.finished ≤ kernel.machine.now
  audits : kernel.audits ≤ kernel.machine.now

structure Ticked (occupant : Option Nat) (before after : Kernel) : Prop where
  now : after.machine.now = before.machine.now + 1
  scheduler : after.scheduler = before.scheduler
  record : after.machine.trace = before.machine.trace.push ⟨before.machine.now, occupant⟩
  pending : ∀ id job, job.phase = .pending →
    (after.machine.job? id = some job ↔ before.machine.job? id = some job)
  idle : occupant = none → after.machine.cpu.current = none ∧ after.machine.ready.ids = []

variable {workload : List Spec} {kernel : Kernel}

def afterTick (kernel : Kernel) (closed : Machine) : Kernel :=
  { kernel with machine := (closed.advance 1).drainEvents.2, audits := kernel.audits + 1 }

/-- The machines that a tick goes through: the expired job is queued again, the CPU is
given away, its occupant works, and a slice may end. -/
structure Phases (workload : List Spec) (kernel : Kernel) (requeued started : Machine)
    (work : Work) (worked closed : Machine) : Prop where
  requeues : kernel.scheduler.requeueExpired kernel.machine = .ok requeued
  settled : requeued.Settled workload
  requeue : Instant 0 kernel.machine requeued
  dispatches : kernel.scheduler.dispatch requeued = .ok started
  startedOrder : started.Orderly workload started.now []
  start : Instant 1 kernel.machine started
  idle : started.cpu.current = none → started.ready.ids = []
  works : started.recordTrace.runCurrent = .ok (work, worked)
  workedOrder : worked.Orderly workload (started.now + 1) []
  tick : Worked 0 started.cpu.current started worked
  sameQueue : worked.ready = started.ready
  closes : kernel.scheduler.closeTick work worked = .ok closed
  closedOrder : closed.Orderly workload (started.now + 1) []
  close : Instant 0 worked closed
  places : closed.ready.ids.Perm worked.ready.ids
  stays : ∀ id, closed.cpu.current = some id → started.cpu.current = some id

theorem Orderly.exists_phases (orderly : kernel.Orderly workload)
    (room : kernel.machine.now + 1 < wordSize) :
    ∃ requeued started work worked closed,
      Phases workload kernel requeued started work worked closed := by
  obtain ⟨requeued, requeues, settled, change⟩ :=
    kernel.scheduler.requeueExpired_settled orderly.settled orderly.sliced
  have switches := change.switches
  have ticked := orderly.switches
  obtain ⟨started, dispatches, order, later, idle⟩ :=
    kernel.scheduler.dispatch_orderly settled (change.fixesWaiting.trans orderly.fixes) (by omega)
  have start := change.trans later
  have shown : started.Orderly workload started.now [] := later.now ▸ order
  have elapsed : started.trace.size = started.now := by
    rw [start.record, start.now, orderly.settled.elapsed]
  have startNow := start.now
  have startFinished := start.finished
  have startSlice := start.sliceUsed
  have counters := And.intro orderly.finished orderly.sliceUsed
  obtain ⟨work, worked, works, workedOrder, tick, sameQueue, stays⟩ :=
    shown.work elapsed (by omega) (by omega) (by omega)
  have fixes := tick.fixesWaiting.trans (start.fixesWaiting.trans orderly.fixes)
  obtain ⟨closed, closes, closedOrder, close, current, places⟩ :=
    kernel.scheduler.closeTick_orderly workedOrder fixes work
  exact ⟨requeued, started, work, worked, closed, {
    requeues := requeues
    settled := settled
    requeue := change
    dispatches := dispatches
    startedOrder := shown
    start := start
    idle := idle
    works := works
    workedOrder := workedOrder
    tick := tick
    sameQueue := sameQueue
    closes := closes
    closedOrder := closedOrder
    close := close
    places := places
    stays := fun id isCurrent => stays id (current ▸ isCurrent) }⟩

theorem advance_settled {machine closed : Machine} {occupant : Option Nat}
    (settled : machine.Settled workload) (worked : Worked 1 occupant machine closed)
    (order : closed.Orderly workload (machine.now + 1) [])
    (stays : ∀ id, closed.cpu.current = some id → occupant = some id)
    (room : machine.now + 1 < wordSize) :
    (closed.advance 1).Settled workload ∧ (closed.advance 1).now = machine.now + 1 := by
  have sameNow := worked.now
  obtain ⟨advanced, later⟩ := order.advance (by rw [sameNow]) room
  refine ⟨⟨advanced, ?_, ?_⟩, later⟩
  · rw [later]
    simp [Machine.advance, worked.record, settled.elapsed]
  · intro id current
    have held := stays id current
    subst held
    simp [Machine.advance, worked.record]

theorem Orderly.ofTick {next : Machine} {occupant : Option Nat}
    (orderly : kernel.Orderly workload) (settled : next.Settled workload)
    (worked : Worked 1 occupant kernel.machine { next with now := kernel.machine.now })
    (later : next.now = kernel.machine.now + 1) (room : kernel.machine.now + 1 < wordSize) :
    Orderly workload { kernel with machine := next, audits := kernel.audits + 1 } where
  settled := settled
  fixes := worked.fixesWaiting.trans orderly.fixes
  sliced := by
    intro expired
    rcases worked.sliceExpired expired with before | slicing
    · exact worked.fixesWaiting.trans (orderly.sliced before)
    · exact worked.fixesWaiting.trans slicing
  room := later ▸ room
  switches := later ▸ Nat.le_trans worked.switches (Nat.succ_le_succ orderly.switches)
  sliceUsed := later ▸ Nat.le_trans worked.sliceUsed (Nat.succ_le_succ orderly.sliceUsed)
  finished := later ▸ Nat.le_trans worked.finished (Nat.succ_le_succ orderly.finished)
  audits := later ▸ Nat.succ_le_succ orderly.audits

/-- A tick goes through its phases and moves the clock on. -/
theorem Phases.ticked {requeued started worked closed : Machine} {work : Work}
    (phases : Phases workload kernel requeued started work worked closed)
    (orderly : kernel.Orderly workload) (room : kernel.machine.now + 1 < wordSize) :
    kernel.tick = .ok (closed.events, kernel.afterTick closed) ∧
      (kernel.afterTick closed).Orderly workload ∧
      Ticked started.cpu.current kernel (kernel.afterTick closed) := by
  have startNow := phases.start.now
  have audits := orderly.audits
  have whole := (phases.start.work phases.tick).close phases.close
  obtain ⟨settled, later⟩ :=
    advance_settled orderly.settled whole (startNow ▸ phases.closedOrder) phases.stays room
  have audit := settled.toOrderly.audit settled.elapsed (by omega)
  have counted := increment_eq_ok_iff.mpr ⟨show kernel.audits + 1 < wordSize by omega, rfl⟩
  refine ⟨?_, ?_, ?_⟩
  · simp only [Kernel.tick, phases.requeues, phases.dispatches, phases.works, phases.closes,
      counted, audit, bind, Except.bind, pure, Except.pure]
    rfl
  · exact orderly.ofTick (settled.drainEvents) ⟨rfl, whole.record, whole.fixesWaiting,
      whole.finished, whole.switches, whole.sliceUsed, whole.sliceExpired, whole.pending⟩ later room
  · refine ⟨later, rfl, whole.record, whole.pending, fun nobody => ?_⟩
    have nextIdle : closed.cpu.current = none := by
      cases isCurrent : closed.cpu.current with
      | none => rfl
      | some id =>
          have held := phases.stays id isCurrent
          simp [nobody] at held
    have places := phases.places
    rw [phases.sameQueue, phases.idle nobody] at places
    exact ⟨nextIdle, places.eq_nil⟩

theorem Orderly.tick (orderly : kernel.Orderly workload)
    (room : kernel.machine.now + 1 < wordSize) :
    ∃ events next occupant, kernel.tick = .ok (events, next) ∧ next.Orderly workload ∧
      Ticked occupant kernel next := by
  obtain ⟨requeued, started, work, worked, closed, phases⟩ := orderly.exists_phases room
  exact ⟨closed.events, kernel.afterTick closed, started.cpu.current, phases.ticked orderly room⟩

theorem ids_emptyQueue (scheduler : Scheduler) : scheduler.emptyQueue.ids = [] := by
  cases scheduler <;> rfl

theorem ofWorkload_orderly {config : Config} {policy : Policy}
    (created : ofWorkload workload config policy = .ok kernel)
    (positive : ∀ spec ∈ workload, 0 < spec.service) :
    kernel.Orderly workload ∧ kernel.machine.now = 0 ∧ kernel.machine.trace = #[] ∧
      kernel.machine.jobs = Job.ofWorkload workload := by
  obtain ⟨scheduler, _, first⟩ := bind_eq_ok_iff.mp created
  cases first
  refine ⟨⟨?_, rfl, by simp [Machine.ofWorkload], ?_, Nat.le_refl _, Nat.le_refl _, Nat.le_refl _,
    Nat.le_refl _⟩, rfl, rfl, rfl⟩
  · exact Machine.ofWorkload_settled positive (ids_emptyQueue scheduler) _
  · simp [Machine.ofWorkload]

structure Woken (id : Nat) (before after : Kernel) : Prop where
  now : after.machine.now = before.machine.now
  scheduler : after.scheduler = before.scheduler
  record : after.machine.trace = before.machine.trace
  woken : after.machine.phase? id ≠ some .pending
  pending : ∀ other job, other ≠ id → job.phase = .pending →
    (after.machine.job? other = some job ↔ before.machine.job? other = some job)

theorem Orderly.wake {id : Nat} {job : Job} (orderly : kernel.Orderly workload)
    (present : kernel.machine.job? id = some job) (isPending : job.phase = .pending)
    (arrived : job.arrival ≤ kernel.machine.now) :
    ∃ next, kernel.wake id = .ok next ∧ next.Orderly workload ∧ Woken id kernel next := by
  obtain ⟨arrives, arrival⟩ := orderly.settled.toOrderly.arrive present isPending arrived
  obtain ⟨machine, enters, order, change, sameCpu⟩ := kernel.scheduler.enqueue_orderly arrival
  have sameTime : machine.now = kernel.machine.now := change.now
  have sameRecord : machine.trace = kernel.machine.trace := change.record
  have sameSwitches : machine.switches ≤ kernel.machine.switches := change.switches
  have sameFinished : machine.finished = kernel.machine.finished := change.finished
  have cpu : machine.cpu = kernel.machine.cpu := sameCpu
  have fixes : machine.fixesWaiting = kernel.machine.fixesWaiting := change.fixesWaiting
  have readied : ∀ other found, found.phase = .pending →
      (machine.job? other = some found ↔
        (kernel.machine.put id { job with phase := .ready }).job? other = some found) :=
    change.pending
  refine ⟨{ kernel with machine := machine }, ?_, ?_, sameTime, rfl, sameRecord, ?_, ?_⟩
  · simp [Kernel.wake, arrives, enters, bind, Except.bind, pure, Except.pure]
  · constructor
    · refine ⟨sameTime ▸ order, ?_, ?_⟩
      · rw [sameRecord, sameTime, orderly.settled.elapsed]
      · rw [cpu, sameRecord]
        exact orderly.settled.traced
    · exact fixes.trans orderly.fixes
    · rw [cpu, fixes]
      exact orderly.sliced
    · exact sameTime ▸ orderly.room
    · exact sameTime ▸ Nat.le_trans sameSwitches orderly.switches
    · exact sameTime ▸ cpu ▸ orderly.sliceUsed
    · exact sameTime ▸ sameFinished ▸ orderly.finished
    · exact sameTime ▸ orderly.audits
  · intro stillPending
    obtain ⟨found, isFound, phase⟩ := Machine.phase?_eq_some_iff.mp stillPending
    have asReadied := (readied id found phase).mp isFound
    rw [Machine.job?_put_self present, Option.some.injEq] at asReadied
    simp [← asReadied] at phase
  · intro other found different phase
    refine (readied other found phase).trans ?_
    rw [Machine.job?_put present, if_neg different]

theorem Orderly.idleUntil {time : Nat} (orderly : kernel.Orderly workload)
    (allowed : kernel.machine.cpu.current = none ∨ time ≤ kernel.machine.now)
    (room : time < wordSize) :
    ∃ events next, kernel.idleUntil time = .ok (events, next) ∧ next.Orderly workload ∧
      next.scheduler = kernel.scheduler ∧ Machine.Idled time kernel.machine next.machine := by
  obtain ⟨machine, waits, order, idled⟩ :=
    orderly.settled.toOrderly.idleUntil orderly.settled.elapsed allowed
  have later := idled.now
  have passes : kernel.machine.now ≤ machine.now := by omega
  refine ⟨machine.events, { kernel with machine := machine.drainEvents.2 }, ?_, ?_, rfl, ?_⟩
  · simp [Kernel.idleUntil, waits, Machine.drainEvents, bind, Except.bind, pure, Except.pure]
  · constructor
    · refine Machine.Settled.drainEvents ⟨order, ?_, ?_⟩
      · rw [idled.record, size_append_idleTrace, orderly.settled.elapsed]
        omega
      · intro id current
        rw [idled.record, heldTicks_append_idleTrace]
        exact orderly.settled.traced id (idled.cpu ▸ current)
    · exact idled.fixesWaiting.trans orderly.fixes
    · change machine.cpu.sliceExpired = true → machine.fixesWaiting = false
      rw [idled.cpu, idled.fixesWaiting]
      exact orderly.sliced
    · have inWord := orderly.room
      change machine.now < wordSize
      omega
    · exact Nat.le_trans (idled.switches ▸ orderly.switches) passes
    · exact Nat.le_trans (idled.cpu ▸ orderly.sliceUsed) passes
    · exact Nat.le_trans (idled.finished ▸ orderly.finished) passes
    · exact Nat.le_trans orderly.audits passes
  · exact ⟨idled.now, idled.record, idled.jobs, idled.fixesWaiting, idled.ready, idled.cpu,
      idled.switches, idled.finished⟩

end Kernel

end CpuScheduling
