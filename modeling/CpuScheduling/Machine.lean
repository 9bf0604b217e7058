import CpuScheduling.Event
import CpuScheduling.ReadyQueue

/-!
The machine that policies drive: a clock, one CPU, the table of jobs, the
ready queue and the record of what happened.  Its operations check what they
rely on, so a step that would lose, double or mistime a job is a `Fault`.
-/

namespace CpuScheduling

structure Cpu where
  current : Option Nat := none
  sliceUsed : Nat := 0
  /-- The current job has used up its slice and is to be queued again at the
  start of the next tick, behind that tick's arrivals. -/
  sliceExpired : Bool := false
  /-- Who held the CPU last; completions and idle ticks do not clear it. -/
  last : Option Nat := none
  deriving DecidableEq

structure Machine where
  now : Nat := 0
  cpu : Cpu := {}
  jobs : List Job
  ready : ReadyQueue
  trace : Array TraceEntry := #[]
  switches : Nat := 0
  /-- The waiting time is fixed at the first dispatch, not derived at completion. -/
  fixesWaiting : Bool
  finished : Nat := 0
  events : List Event := []
  deriving DecidableEq

inductive Work where
  | idle
  | ran (job : Nat)
  | completed (job : Nat)
  deriving DecidableEq

namespace Machine

def ofWorkload (workload : List Spec) (ready : ReadyQueue) (fixesWaiting : Bool) : Machine where
  jobs := Job.ofWorkload workload
  ready := ready
  fixesWaiting := fixesWaiting

def job? (machine : Machine) : Nat → Option Job
  | 0 => none
  | index + 1 => machine.jobs[index]?

def job (machine : Machine) (id : Nat) : Checked Job :=
  match machine.job? id with
  | some job => .ok job
  | none => .error (.unknownJob id)

def put (machine : Machine) (id : Nat) (job : Job) : Machine :=
  { machine with jobs := machine.jobs.set (id - 1) job }

@[simp]
theorem length_jobs_put (machine : Machine) (id : Nat) (job : Job) :
    (machine.put id job).jobs.length = machine.jobs.length := by
  simp [put]

theorem job?_put_self {machine : Machine} {id : Nat} {old : Job}
    (present : machine.job? id = some old) (job : Job) :
    (machine.put id job).job? id = some job := by
  cases id with
  | zero => simp [job?] at present
  | succ index =>
      have inTable : index < machine.jobs.length :=
        (List.getElem?_eq_some_iff.mp present).choose
      simp [job?, put, inTable]

theorem job?_put_of_ne {machine : Machine} {id other : Nat} (different : other ≠ id)
    (positive : 0 < id) (job : Job) :
    (machine.put id job).job? other = machine.job? other := by
  cases other with
  | zero => rfl
  | succ index =>
      have elsewhere : id - 1 ≠ index := by omega
      simp [job?, put, elsewhere]

def emit (machine : Machine) (event : Event) : Machine :=
  { machine with events := machine.events ++ [event] }

def cpuIdle (machine : Machine) : Bool :=
  machine.cpu.current.isNone

def allFinished (machine : Machine) : Bool :=
  machine.finished == machine.jobs.length

/-- Let time pass; the clock stops at the last time that it can show. -/
def advance (machine : Machine) (ticks : Nat) : Machine :=
  { machine with now := min (machine.now + ticks) (wordSize - 1) }

def arrive (machine : Machine) (id : Nat) : Checked Machine := do
  let job ← machine.job id
  ensure (job.phase = .pending) (.admittedTwice id)
  return (machine.put id { job with phase := .ready }).emit (.arrival id)

def enqueue (machine : Machine) (id : Nat) (rank : Rank) : Checked Machine := do
  ensure (id ∉ machine.ready.members) (.alreadyQueued id)
  let job ← machine.job id
  ensure (job.phase = .ready) (.notReady id)
  let ready ← machine.ready.push id rank
  return { machine with ready := ready }

def pop (machine : Machine) : Option Nat × Machine :=
  let (picked, ready) := machine.ready.pop
  (picked, { machine with ready := ready })

/-- The books of a job that gets the CPU at `now`.  Only the first start
counts for its response, and for its waiting where that is fixed there. -/
def startBooks (fixesWaiting : Bool) (now : Nat) (job : Job) : Checked Job := do
  match job.firstStart with
  | some _ => return { job with phase := .running }
  | none =>
      ensure (job.arrival ≤ now) (.startedBeforeArrival job.id)
      return {
        job with
          phase := .running
          firstStart := some now
          response := some (now - job.arrival)
          waiting := if fixesWaiting then some (now - job.arrival) else job.waiting }

def start (machine : Machine) (id : Nat) : Checked Machine := do
  ensure (machine.cpu.current = none) .cpuBusy
  ensure (id ∉ machine.ready.members) (.queuedWhileRunning id)
  let job ← machine.job id
  let started ← startBooks machine.fixesWaiting machine.now job
  let last := machine.cpu.last
  let switched := last.isSome && last != some id
  let switches ← if switched then increment machine.switches else .ok machine.switches
  let machine := machine.put id started
  return Machine.emit {
    machine with
      switches := switches
      cpu := { current := some id, last := some id } } (.dispatch id last switched)

def release (machine : Machine) (id : Nat) : Checked Machine := do
  let job ← machine.job id
  let machine := machine.put id { job with phase := .ready }
  return { machine with cpu := { last := machine.cpu.last } }

def preempt (machine : Machine) (displacing : Nat) :
    Checked (Option Nat × Machine) := do
  match machine.cpu.current with
  | none => return (none, machine)
  | some id => return (some id, (← machine.release id).emit (.preempt id displacing))

/-- A current job whose slice is used up loses the CPU; it is not queued
yet. -/
def expireSlice (machine : Machine) : Checked (Option Nat × Machine) := do
  if machine.cpu.sliceExpired then
    match machine.cpu.current with
    | none => return (none, machine)
    | some id => return (some id, (← machine.release id).emit (.sliceExpired id))
  else
    return (none, machine)

def markExpired (machine : Machine) : Machine :=
  { machine with cpu := { machine.cpu with sliceExpired := true } }

def recordTrace (machine : Machine) : Machine :=
  let recorded :=
    { machine with trace := machine.trace.push ⟨machine.now, machine.cpu.current⟩ }
  match recorded.cpu.current with
  | none => recorded.emit (.cpuIdle 1)
  | some _ => recorded

/-- The books of a running job that completes at `time`.  A waiting time
that was fixed at dispatch has to agree with the derived one. -/
def completeBooks (time : Nat) (job : Job) : Checked Job := do
  ensure (job.phase = .running) (.notRunning job.id)
  ensure (job.arrival ≤ time) (.finishedTooEarly job.id)
  let turnaround := time - job.arrival
  ensure (job.service ≤ turnaround) (.finishedTooEarly job.id)
  let waiting := turnaround - job.service
  ensure (job.waiting = none ∨ job.waiting = some waiting) (.waitingMismatch job.id)
  return {
    job with
      waiting := some waiting
      completion := some time
      turnaround := some turnaround
      phase := .finished }

def runCurrent (machine : Machine) : Checked (Work × Machine) := do
  match machine.cpu.current with
  | none => return (.idle, machine)
  | some id =>
      let sliceUsed ← increment machine.cpu.sliceUsed
      let job ← machine.job id
      ensure (0 < job.remaining) (.noWorkLeft id)
      let worked := { job with remaining := job.remaining - 1 }
      if worked.remaining = 0 then
        let time ← increment machine.now
        let completed ← completeBooks time worked
        let finished ← increment machine.finished
        let machine := machine.put id completed
        return (.completed id, Machine.emit {
          machine with
            finished := finished
            cpu := { last := machine.cpu.last } } (.complete id time))
      else
        let machine := machine.put id worked
        return (.ran id, {
          machine with cpu := { machine.cpu with sliceUsed := sliceUsed } })

def idleTrace (first ticks : Nat) : List TraceEntry :=
  (List.range' first ticks).map fun time => ⟨time, none⟩

/-- Let an idle CPU wait until a time, one idle entry for each skipped tick; a
time that has come changes nothing. -/
def idleUntil (machine : Machine) (time : Nat) : Checked Machine := do
  if time ≤ machine.now then
    return machine
  else
    ensure (machine.cpu.current = none) .cpuBusy
    let skipped := time - machine.now
    return Machine.emit {
      machine with
        trace := machine.trace.appendList (idleTrace machine.now skipped)
        now := time } (.cpuIdle skipped)

def drainEvents (machine : Machine) : List Event × Machine :=
  (machine.events, { machine with events := [] })

end Machine

end CpuScheduling
