import CpuScheduling.Machine

/-!
The audit of the machine's books after a tick.  It checks that the trace has no
gap, that the job on the CPU is running and not queued, that queued jobs
are ready and queued once, and that work and times agree for every job.
-/

namespace CpuScheduling

namespace Job

/-- A finished job has no work left and its turnaround is its waiting plus
its service; any other job has work left. -/
def audit (job : Job) : Checked Unit :=
  if job.phase = .finished then do
    ensure (job.remaining = 0) (.finishedWithWork job.id)
    match job.waiting with
    | none => ensure (job.turnaround = none) (.timingMismatch job.id)
    | some waiting => do
        ensure (waiting + job.service < wordSize) .overflow
        ensure (job.turnaround = some (waiting + job.service))
          (.timingMismatch job.id)
  else
    ensure (0 < job.remaining) (.noWorkLeft job.id)

end Job

namespace Machine

def auditCpu (machine : Machine) : Checked Unit :=
  match machine.cpu.current with
  | none => .ok ()
  | some id => do
      let job ← machine.job id
      ensure (job.phase = .running) (.notRunning id)
      ensure (id ∉ machine.ready.members) (.queuedWhileRunning id)

def auditQueue (machine : Machine) : List Nat → Checked Unit
  | [] => .ok ()
  | id :: rest => do
      ensure (id ∉ rest) (.alreadyQueued id)
      let job ← machine.job id
      ensure (job.phase = .ready) (.notReady id)
      machine.auditQueue rest

def audit (machine : Machine) : Checked Unit := do
  ensure (machine.trace.size = machine.now) .traceGap
  machine.auditCpu
  machine.auditQueue machine.ready.members
  machine.jobs.forM Job.audit

end Machine

end CpuScheduling
