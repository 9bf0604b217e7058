import CpuScheduling.Job
import CpuScheduling.Random.Stream

/-!
Synthetic workloads.  At every tick a job arrives with a given probability;
it is short with another, and its priority is drawn evenly up to a limit.  The
draws of a tick depend on the ticks before it alone, so a longer workload begins
with the shorter ones of its seed.
-/

namespace CpuScheduling

structure Bernoulli where
  ticks : UInt64 := 50
  arrivalChance : Float := 0.3
  shortChance : Float := 0.3
  shortService : UInt64 := 2
  longService : UInt64 := 6
  maxPriority : UInt32 := 5
  deriving DecidableEq

namespace Bernoulli

open CpuScheduling.Random (Generator Stream)

section Drawing

variable {State : Type} (generator : Generator State) (parameters : Bernoulli)

def arrival? (tick : Nat) (state : State) : Option Spec × State :=
  let (chance, state) := generator.fraction state
  if chance < parameters.arrivalChance then
    let (shortness, state) := generator.fraction state
    let service :=
      if shortness < parameters.shortChance then parameters.shortService
      else parameters.longService
    let (priority, state) := generator.upTo parameters.maxPriority state
    (some ⟨UInt64.ofNat tick, service, priority⟩, state)
  else
    (none, state)

def arrivals (tick : Nat) : Nat → State → List Spec
  | 0, _ => []
  | ticks + 1, state =>
      match parameters.arrival? generator tick state with
      | (some spec, state) => spec :: arrivals (tick + 1) ticks state
      | (none, state) => arrivals (tick + 1) ticks state

/-- The workload that a generator draws from a state on. -/
def drawn (start : State) : List Spec :=
  parameters.arrivals generator 0 parameters.ticks.toNat start

end Drawing

def workload (parameters : Bernoulli) (seed : UInt64) : List Spec :=
  parameters.drawn Stream.generator (Stream.ofSeed seed)

end Bernoulli

end CpuScheduling
