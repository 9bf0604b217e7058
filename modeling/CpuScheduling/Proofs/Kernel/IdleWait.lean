import CpuScheduling.Proofs.Kernel.Calls
import CpuScheduling.Proofs.Kernel.Effects

/-!
An idle wait is so many idle ticks.  Where the CPU is idle and nobody waits for it,
waiting until a time and ticking until then leave the same machine behind; only the
count of audits and the way in which the idle time is reported tell them apart.
-/

namespace CpuScheduling

namespace Machine

def rested (machine : Machine) (ticks : Nat) : Machine :=
  { machine with
    trace := machine.trace ++ idleTrace machine.now ticks
    now := machine.now + ticks
    events := [] }

theorem idleTrace_add (first ticks more : Nat) :
    idleTrace first (ticks + more) = idleTrace first ticks ++ idleTrace (first + ticks) more := by
  simp [idleTrace, ← List.map_append]

theorem rested_rested (machine : Machine) (ticks more : Nat) :
    (machine.rested ticks).rested more = machine.rested (ticks + more) := by
  have record : machine.trace ++ idleTrace machine.now ticks ++
      idleTrace (machine.now + ticks) more = machine.trace ++ idleTrace machine.now (ticks + more) := by
    apply Array.toList_inj.mp
    simp [idleTrace_add]
  simp [rested, record, Nat.add_assoc]

end Machine

namespace Kernel

/-- So many ticks in a row, and the events of all of them. -/
def ticks (kernel : Kernel) : Nat → Checked (List Event × Kernel)
  | 0 => .ok ([], kernel)
  | count + 1 => do
      let (events, next) ← kernel.tick
      let (later, last) ← next.ticks count
      return (events ++ later, last)

/-- The kernel after so many idle ticks, of which so many have been audited. -/
def rested (kernel : Kernel) (ticks audited : Nat) : Kernel :=
  { kernel with machine := kernel.machine.rested ticks, audits := kernel.audits + audited }

structure AtRest (kernel : Kernel) : Prop where
  idle : kernel.machine.cpu.current = none
  empty : kernel.machine.ready.ids = []
  collected : kernel.machine.events = []

variable {workload : List Spec} {kernel : Kernel}

theorem AtRest.stays (atRest : kernel.AtRest) (ticks audited : Nat) :
    (kernel.rested ticks audited).AtRest :=
  ⟨atRest.idle, atRest.empty, rfl⟩

theorem AtRest.rested_zero (atRest : kernel.AtRest) : kernel.rested 0 0 = kernel := by
  cases kernel with
  | mk machine scheduler audits =>
      have collected : machine.events = [] := atRest.collected
      simp [Kernel.rested, Machine.rested, Machine.idleTrace, ← collected]

theorem rested_rested (kernel : Kernel) (ticks audited more moreAudited : Nat) :
    (kernel.rested ticks audited).rested more moreAudited =
      kernel.rested (ticks + more) (audited + moreAudited) := by
  simp only [Kernel.rested, Machine.rested_rested, Nat.add_assoc]

theorem AtRest.dispatch {scheduler : Scheduler} {next : Machine} (atRest : kernel.AtRest)
    (dispatches : scheduler.dispatch kernel.machine = .ok next) : next = kernel.machine := by
  simp only [Scheduler.dispatch, atRest.idle] at dispatches
  rcases Scheduler.fillCpu_ok dispatches with ⟨_, same⟩ | ⟨id, _, _, picked, _⟩
  · exact same
  · simp [ReadyQueue.peek_eq_none_iff.mpr atRest.empty] at picked

theorem AtRest.tick (atRest : kernel.AtRest) (orderly : kernel.Orderly workload)
    (room : kernel.machine.now + 1 < wordSize) :
    kernel.tick = .ok ([.cpuIdle 1], kernel.rested 1 1) ∧
      (kernel.rested 1 1).Orderly workload := by
  obtain ⟨requeued, started, work, worked, closed, phases⟩ := orderly.exists_phases room
  obtain ⟨ticks, order, _⟩ := phases.ticked orderly room
  have requeued : requeued = kernel.machine := by
    rcases Scheduler.requeueExpired_ok phases.requeues with ⟨_, same⟩ | ⟨id, _, _, current, _⟩
    · exact same
    · simp [atRest.idle] at current
  subst requeued
  cases atRest.dispatch phases.dispatches
  have works := phases.works
  rw [Machine.recordTrace_idle atRest.idle, Machine.runCurrent_idle (by exact atRest.idle)] at works
  cases works
  cases phases.closes
  have shown : min (kernel.machine.now + 1) (wordSize - 1) = kernel.machine.now + 1 := by omega
  have isRested : kernel.afterTick (Machine.emit
      { kernel.machine with trace := kernel.machine.trace.push ⟨kernel.machine.now, none⟩ }
      (.cpuIdle 1)) = kernel.rested 1 1 := by
    simpa [afterTick, Kernel.rested, Machine.rested, Machine.advance, Machine.drainEvents,
      Machine.emit, Machine.idleTrace] using shown
  rw [isRested] at ticks order
  refine ⟨ticks.trans ?_, order⟩
  simp [Machine.emit, atRest.collected]

theorem AtRest.ticks (atRest : kernel.AtRest) (orderly : kernel.Orderly workload) (count : Nat)
    (room : kernel.machine.now + count < wordSize) :
    kernel.ticks count = .ok (List.replicate count (.cpuIdle 1), kernel.rested count count) ∧
      (kernel.rested count count).Orderly workload := by
  induction count generalizing kernel with
  | zero =>
      rw [atRest.rested_zero]
      exact ⟨rfl, orderly⟩
  | succ count inductionHypothesis =>
      obtain ⟨first, order⟩ := atRest.tick orderly (by omega)
      have later : (kernel.rested 1 1).machine.now + count < wordSize := by
        simp only [Kernel.rested, Machine.rested]
        omega
      obtain ⟨others, lastOrder⟩ := inductionHypothesis (atRest.stays 1 1) order later
      rw [rested_rested, Nat.add_comm 1] at others lastOrder
      refine ⟨?_, lastOrder⟩
      simp [Kernel.ticks, first, others, bind, Except.bind, pure, Except.pure,
        List.replicate_succ]

theorem AtRest.idleUntil (atRest : kernel.AtRest) {ticks : Nat} (someTicks : 0 < ticks) :
    kernel.idleUntil (kernel.machine.now + ticks) =
      .ok ([.cpuIdle ticks], kernel.rested ticks 0) := by
  have later : kernel.machine.now < kernel.machine.now + ticks := by omega
  simp [Kernel.idleUntil, Machine.idleUntil_later atRest.idle later, Machine.drainEvents,
    Machine.emit, Kernel.rested, Machine.rested, atRest.collected, bind, Except.bind, pure,
    Except.pure]

/-- The events of a kernel at rest have been collected.  While a job waits, its arrival
may still be among those that have not. -/
def Collected (kernel : Kernel) : Prop :=
  kernel.machine.ready.ids = [] → kernel.machine.events = []

theorem perform_collected {call : Call} {next : Kernel}
    (performed : kernel.perform call = .ok next) : next.Collected := by
  intro empty
  cases call with
  | wake id =>
      obtain ⟨job, ready, _, _, _, entered, rfl⟩ := wake_ok performed
      have queued := (ReadyQueue.ids_push_perm entered).mem_iff.mpr List.mem_cons_self
      simp [show ready.ids = [] from empty] at queued
  | tick =>
      cases ticks : kernel.tick with
      | error fault => simp [Kernel.perform, ticks, Functor.map, Except.map] at performed
      | ok result =>
          simp only [Kernel.perform, ticks, Functor.map, Except.map] at performed
          cases performed
          exact tick_collected ticks
  | idleUntil time =>
      cases waits : kernel.idleUntil time.toNat with
      | error fault => simp [Kernel.perform, waits, Functor.map, Except.map] at performed
      | ok result =>
          simp only [Kernel.perform, waits, Functor.map, Except.map] at performed
          cases performed
          obtain ⟨machine, _, _, isNext⟩ := idleUntil_ok waits
          rw [isNext]
          rfl

theorem Reachable.collected {first : Kernel} (reachable : Reachable first kernel)
    (collected : first.Collected) : kernel.Collected := by
  cases reachable with
  | refl => exact collected
  | call _ _ performed => exact perform_collected performed

/-- A reachable kernel that nobody keeps busy is at rest. -/
theorem Reachable.atRest {first : Kernel} {config : Config} {policy : Policy}
    (created : ofWorkload workload config policy = .ok first) (reachable : Reachable first kernel)
    (idle : kernel.machine.cpu.current = none) (empty : kernel.machine.ready.ids = []) :
    kernel.AtRest := by
  obtain ⟨scheduler, _, isFirst⟩ := bind_eq_ok_iff.mp created
  cases isFirst
  exact ⟨idle, empty, reachable.collected (fun _ => rfl) empty⟩

end Kernel

end CpuScheduling
