import CpuScheduling.Machine

/-!
What a finished run amounts to.  Means are doubles, updated sample by sample:
each sample moves the mean by its share of the difference.
-/

namespace CpuScheduling

structure Metrics where
  averageTurnaround : Float
  averageWaiting : Float
  averageResponse : Float
  contextSwitches : Nat
  totalTicks : Nat
  idleTicks : Nat
  deriving DecidableEq

def meanFrom (mean : Float) (count : Nat) : List Nat → Float
  | [] => mean
  | sample :: rest =>
      let difference := sample.toUInt64.toFloat - mean
      meanFrom (mean + difference / (count + 1).toUInt64.toFloat) (count + 1) rest

/-- The mean of samples that fit into a word; not a number where there are none. -/
def mean (samples : List Nat) : Float :=
  if samples.isEmpty then 0.0 / 0.0 else meanFrom 0.0 0 samples

namespace Metrics

def ofRun (jobs : List Job) (trace : Array TraceEntry) (switches : Nat) :
    Checked Metrics := do
  ensure (jobs ≠ []) .noJobs
  ensure (∀ job ∈ jobs, job.phase = .finished) .unfinished
  return {
    averageTurnaround := mean (jobs.filterMap (·.turnaround))
    averageWaiting := mean (jobs.filterMap (·.waiting))
    averageResponse := mean (jobs.filterMap (·.response))
    contextSwitches := switches
    totalTicks := trace.size
    idleTicks := trace.countP (·.occupant.isNone) }

end Metrics

end CpuScheduling
