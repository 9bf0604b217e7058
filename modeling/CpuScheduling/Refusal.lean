import CpuScheduling.Checked
import CpuScheduling.Json.Failure

/-!
Why a simulation is refused or given up.  A refusal says what is wrong with what
was asked for; a broken check (`Fault`) would say what is wrong with the machine.
-/

namespace CpuScheduling

inductive Malformed where
  | json (failure : Json.Failure)
  /-- It is JSON, but neither a list of jobs nor an object that holds one. -/
  | noWorkload
  | unreadable (reason : String)
  deriving DecidableEq

def Malformed.message : Malformed → String
  | json failure => failure.message
  | noWorkload => "data did not match any variant of untagged enum Document"
  | unreadable reason => reason

inductive Refusal where
  | malformedWorkload (problem : Malformed)
  | emptyWorkload
  /-- The job at this index, counted from zero, has nothing to do. -/
  | noService (index : Nat)
  | missingQuantum
  | zeroQuantum
  | zeroMaxTicks
  /-- Some job is unfinished after this many ticks. -/
  | divergence (ticks : Nat)
  | unsupportedPolicy (name : String)
  deriving DecidableEq

namespace Refusal

def message : Refusal → String
  | malformedWorkload problem =>
      "invalid workload: malformed workload JSON: " ++ problem.message
  | emptyWorkload => "invalid workload: workload has no processes"
  | noService index =>
      s!"invalid workload (process #{index + 1}): service duration must be positive"
  | missingQuantum =>
      "invalid configuration: quantum is required for round-robin policies"
  | zeroQuantum =>
      "invalid configuration: quantum must be a positive integer, got 0"
  | zeroMaxTicks => "invalid configuration: maxTicks must be positive"
  | divergence ticks => s!"simulation did not finish within {ticks} ticks"
  | unsupportedPolicy name =>
      s!"unsupported policy '{name}'. " ++
        "Valid: fcfs, sjf, srtf, priority-np, priority-p, rr, priority-rr"

end Refusal

inductive Failure where
  | refused (refusal : Refusal)
  | broken (fault : Fault)
  deriving DecidableEq

def refusing {Alpha : Type} : Except Refusal Alpha → Except Failure Alpha
  | .ok value => .ok value
  | .error refusal => .error (.refused refusal)

def checking {Alpha : Type} : Checked Alpha → Except Failure Alpha
  | .ok value => .ok value
  | .error fault => .error (.broken fault)

end CpuScheduling
