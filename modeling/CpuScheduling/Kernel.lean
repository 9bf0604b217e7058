import CpuScheduling.Audit
import CpuScheduling.Scheduler

/-!
A machine under a scheduler: jobs are woken when they arrive, and each tick
of the clock is scheduled, worked and audited.
-/

namespace CpuScheduling

structure Kernel where
  machine : Machine
  scheduler : Scheduler
  audits : Nat := 0
  deriving DecidableEq

namespace Kernel

def ofWorkload (workload : List Spec) (config : Config) (policy : Policy) :
    Except Refusal Kernel := do
  let scheduler ← Scheduler.ofPolicy policy config
  return {
    machine := .ofWorkload workload scheduler.emptyQueue !scheduler.isPreemptive
    scheduler := scheduler }

def wake (kernel : Kernel) (id : Nat) : Checked Kernel := do
  let machine ← kernel.machine.arrive id
  let machine ← kernel.scheduler.enqueue machine id
  return { kernel with machine := machine }

/-- The tick that begins now.  A slice that expired in the last tick is queued
behind the arrivals of this one. -/
def tick (kernel : Kernel) : Checked (List Event × Kernel) := do
  let machine ← kernel.scheduler.requeueExpired kernel.machine
  let machine ← kernel.scheduler.dispatch machine
  let (work, machine) ← machine.recordTrace.runCurrent
  let machine ← kernel.scheduler.closeTick work machine
  let machine := machine.advance 1
  let audits ← increment kernel.audits
  machine.audit
  let (events, machine) := machine.drainEvents
  return (events, { kernel with machine := machine, audits := audits })

def idleUntil (kernel : Kernel) (time : Nat) : Checked (List Event × Kernel) := do
  let machine ← kernel.machine.idleUntil time
  let (events, machine) := machine.drainEvents
  return (events, { kernel with machine := machine })

end Kernel

end CpuScheduling
