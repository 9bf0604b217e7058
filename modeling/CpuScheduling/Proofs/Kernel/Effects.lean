import CpuScheduling.Proofs.Kernel.Order
import CpuScheduling.Proofs.Scheduler.Effects

/-!
What the calls of a kernel do when they succeed.
-/

namespace CpuScheduling.Kernel

variable {workload : List Spec} {kernel next : Kernel}

def woken (machine : Machine) (id : Nat) (job : Job) (ready : ReadyQueue) : Machine :=
  { (machine.put id { job with phase := .ready }).emit (.arrival id) with ready := ready }

theorem wake_ok {id : Nat} (wakes : kernel.wake id = .ok next) :
    ∃ job ready, kernel.machine.job? id = some job ∧ job.phase = .pending ∧
      id ∉ kernel.machine.ready.ids ∧
      kernel.machine.ready.push id (kernel.scheduler.rank job) = .ok ready ∧
      next = { kernel with machine := woken kernel.machine id job ready } := by
  simp only [Kernel.wake, bind_eq_ok_iff] at wakes
  obtain ⟨_, arrives, _, enters, isNext⟩ := wakes
  obtain ⟨job, present, isPending, rfl⟩ := Machine.arrive_ok arrives
  obtain ⟨readied, ready, isReadied, _, absent, entered, rfl⟩ := Scheduler.enqueue_ok enters
  cases isNext
  have same : readied = { job with phase := .ready } :=
    Option.some.inj (isReadied.symm.trans (Machine.job?_put_self present _))
  rw [same, Scheduler.rank_phase] at entered
  exact ⟨job, ready, present, isPending, absent, entered, rfl⟩

theorem tick_collected {events : List Event} (ticks : kernel.tick = .ok (events, next)) :
    next.machine.events = [] := by
  simp only [Kernel.tick, bind_eq_ok_iff] at ticks
  obtain ⟨_, _, _, _, _, _, _, _, _, _, _, _, isResult⟩ := ticks
  cases isResult
  rfl

theorem clock_of_tick {events : List Event} (ticks : kernel.tick = .ok (events, next)) :
    next.machine.now = min (kernel.machine.now + 1) (wordSize - 1) ∧
      next.machine.trace.size = kernel.machine.trace.size + 1 ∧
      next.machine.trace.size = next.machine.now := by
  simp only [Kernel.tick, bind_eq_ok_iff] at ticks
  obtain ⟨requeued, requeues, started, dispatches, ⟨work, worked⟩, works, closed, closes, _, _, _,
    audited, isResult⟩ := ticks
  obtain ⟨requeuedNow, requeuedTrace⟩ := Scheduler.requeueExpired_same requeues
  obtain ⟨startedNow, startedTrace⟩ := Scheduler.dispatch_same dispatches
  have spent : worked.now = started.now ∧ worked.trace.size = started.trace.size + 1 := by
    rcases Machine.work_ok works with
      ⟨_, _, rfl⟩ | ⟨_, _, _, _, ⟨_, _, _, rfl⟩ | ⟨_, _, _, _, rfl⟩⟩
    · exact ⟨rfl, Array.size_push _⟩
    · exact ⟨rfl, Array.size_push _⟩
    · exact ⟨rfl, Array.size_push _⟩
  obtain ⟨_, _, _, rfl⟩ := Scheduler.closeTick_same closes
  obtain ⟨_, noGap, _⟩ := bind_eq_ok_iff.mp audited
  cases isResult
  refine ⟨?_, ?_, ensure_eq_ok_iff.mp noGap⟩
  · rw [← requeuedNow, ← startedNow, ← spent.1]
    rfl
  · rw [← requeuedTrace, ← startedTrace, ← spent.2]
    rfl

/-- A tick succeeds only where the clock can still move on: at the last time that it can
show, the trace would get ahead of it. -/
theorem Orderly.room_of_tick {events : List Event} (orderly : kernel.Orderly workload)
    (ticks : kernel.tick = .ok (events, next)) : kernel.machine.now + 1 < wordSize := by
  obtain ⟨moved, longer, elapsed⟩ := clock_of_tick ticks
  have before := orderly.settled.elapsed
  have inWord := orderly.room
  omega

/-- A tick goes through its phases, and its events are all that happened since the last
call that collected them. -/
theorem Orderly.tick_ok {events : List Event} (orderly : kernel.Orderly workload)
    (ticks : kernel.tick = .ok (events, next)) :
    ∃ requeued started work worked closed,
      Phases workload kernel requeued started work worked closed ∧
      events = closed.events ∧ next = kernel.afterTick closed ∧ next.Orderly workload ∧
      Ticked started.cpu.current kernel next := by
  have room := orderly.room_of_tick ticks
  obtain ⟨requeued, started, work, worked, closed, phases⟩ := orderly.exists_phases room
  obtain ⟨isTick, order, ticked⟩ := phases.ticked orderly room
  cases isTick.symm.trans ticks
  exact ⟨requeued, started, work, worked, closed, phases, rfl, rfl, order, ticked⟩

theorem Phases.exists_news {requeued started worked closed : Machine} {work : Work}
    (phases : Phases workload kernel requeued started work worked closed) :
    ∃ news, closed.events = kernel.machine.events ++ news := by
  have begun := (Scheduler.requeueExpired_events phases.requeues).trans
    (Scheduler.dispatch_events phases.dispatches)
  have continued : started.events <+: worked.events := by
    rcases Machine.work_ok phases.works with
      ⟨_, _, rfl⟩ | ⟨_, _, _, _, ⟨_, _, _, rfl⟩ | ⟨_, _, _, _, rfl⟩⟩
    · exact List.prefix_append started.events _
    · exact List.prefix_rfl
    · exact List.prefix_append started.events _
  obtain ⟨jobs, ready, expired, rfl⟩ := Scheduler.closeTick_same phases.closes
  obtain ⟨news, isNews⟩ := begun.trans continued
  exact ⟨news, isNews.symm⟩

theorem idleUntil_ok {time : Nat} {events : List Event}
    (waits : kernel.idleUntil time = .ok (events, next)) :
    ∃ machine, kernel.machine.idleUntil time = .ok machine ∧ events = machine.events ∧
      next = { kernel with machine := machine.drainEvents.2 } := by
  obtain ⟨machine, isMachine, rest⟩ := bind_eq_ok_iff.mp waits
  cases rest
  exact ⟨machine, isMachine, rfl, rfl⟩

end CpuScheduling.Kernel
