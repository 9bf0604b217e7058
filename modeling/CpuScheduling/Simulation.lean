import CpuScheduling.Kernel
import CpuScheduling.Metrics
import CpuScheduling.SortedInsertion

/-!
Whole runs: arrivals are fed to a kernel until every job has finished or the
limit on ticks is reached.
-/

namespace CpuScheduling

structure Schedule where
  policy : Policy
  metrics : Metrics
  trace : Array TraceEntry
  /-- In the order of their ids. -/
  jobs : List Job
  deriving DecidableEq

namespace Schedule

def timeline (schedule : Schedule) : List (Option Nat) :=
  schedule.trace.toList.map (·.occupant)

/-- One job completes no later than another; an unset time comes first. -/
def completesBefore (first second : Job) : Bool :=
  match first.completion, second.completion with
  | none, _ => true
  | some _, none => false
  | some earlier, some later => earlier ≤ later

def completionOrder (schedule : Schedule) : List Nat :=
  (sortByInsertion completesBefore schedule.jobs).map (·.id)

end Schedule

def validate (workload : List Spec) : Except Refusal Unit :=
  if workload.isEmpty then .error .emptyWorkload
  else
    match workload.findIdx? (·.service = 0) with
    | some index => .error (.noService index)
    | none => .ok ()

structure Simulation where
  kernel : Kernel
  /-- The jobs that have not been woken yet, by arrival and then by id. -/
  pending : List Nat
  maxTicks : Nat
  deriving DecidableEq

namespace Simulation

def arrivesBefore (first second : Job) : Bool :=
  first.arrival < second.arrival || first.arrival = second.arrival && first.id ≤ second.id

def arrivalOrder (jobs : List Job) : List Nat :=
  (sortByInsertion arrivesBefore jobs).map (·.id)

def ofWorkload (workload : List Spec) (config : Config) (policy : Policy) :
    Except Refusal Simulation := do
  let maxTicks ← config.tickLimit
  let kernel ← Kernel.ofWorkload workload config policy
  return {
    kernel := kernel
    pending := arrivalOrder kernel.machine.jobs
    maxTicks := maxTicks }

def now (simulation : Simulation) : Nat :=
  simulation.kernel.machine.now

def allFinished (simulation : Simulation) : Bool :=
  simulation.kernel.machine.allFinished

def wakeArrived (kernel : Kernel) : List Nat → Checked (Kernel × List Nat)
  | [] => .ok (kernel, [])
  | id :: rest => do
      let job ← kernel.machine.job id
      if job.arrival ≤ kernel.machine.now then
        wakeArrived (← kernel.wake id) rest
      else
        return (kernel, id :: rest)

/-- Let a CPU with nothing to do wait for the next arrival, but not beyond the
limit on ticks. -/
def skipIdle (kernel : Kernel) (pending : List Nat) (maxTicks : Nat) :
    Checked (List Event × Kernel) :=
  if kernel.machine.cpuIdle && kernel.machine.ready.isEmpty then
    match pending with
    | [] => .ok ([], kernel)
    | id :: _ => do
        let job ← kernel.machine.job id
        kernel.idleUntil (min job.arrival maxTicks)
  else
    .ok ([], kernel)

/-- One tick, and then any idle time before the next arrival.  Nothing happens
once every job has finished. -/
def step (simulation : Simulation) : Checked (List Event × Simulation) :=
  if simulation.allFinished then .ok ([], simulation)
  else do
    let (kernel, pending) ← wakeArrived simulation.kernel simulation.pending
    let (events, kernel) ← kernel.tick
    let (idle, kernel) ← skipIdle kernel pending simulation.maxTicks
    return (events ++ idle, { simulation with kernel := kernel, pending := pending })

def schedule (simulation : Simulation) : Checked Schedule := do
  let machine := simulation.kernel.machine
  let metrics ← Metrics.ofRun machine.jobs machine.trace machine.switches
  return {
    policy := simulation.kernel.scheduler.policy
    metrics := metrics
    trace := machine.trace
    jobs := machine.jobs }

/-- Steps until every job has finished.  Each step takes at least one tick, so
the ticks up to the limit are fuel enough, and no run stalls. -/
def runFor : Nat → Simulation → Except Failure Schedule
  | fuel, simulation =>
      if simulation.allFinished then checking simulation.schedule
      else if simulation.maxTicks ≤ simulation.now then
        .error (.refused (.divergence simulation.maxTicks))
      else
        match fuel with
        | 0 => .error (.broken .stalled)
        | fuel + 1 =>
            match simulation.step with
            | .ok (_, next) => runFor fuel next
            | .error fault => .error (.broken fault)

/-- Run to completion; there is no partial schedule. -/
def run (simulation : Simulation) : Except Failure Schedule :=
  runFor (simulation.maxTicks - simulation.now) simulation

end Simulation

def simulate (workload : List Spec) (config : Config) (policy : Policy) :
    Except Failure Schedule := do
  refusing (validate workload)
  let simulation ← refusing (Simulation.ofWorkload workload config policy)
  simulation.run

def simulateAll (workload : List Spec) (config : Config) :
    List (Policy × Except Failure Schedule) :=
  Policy.all.map fun policy => (policy, simulate workload config policy)

end CpuScheduling
