import CpuScheduling.Config
import CpuScheduling.Machine
import CpuScheduling.Policy

/-!
What each policy decides.  A scheduler is a policy with the settings that it
uses; it ranks waiting jobs, says whether a waiting job displaces the
current one, and at the end of a slice may age those that wait.
-/

namespace CpuScheduling

inductive Scheduler where
  | fcfs
  | sjf
  | srtf
  | priority
  | preemptivePriority
  | roundRobin (quantum : Nat)
  | agingRoundRobin (quantum agingStep : Nat)
  deriving DecidableEq

namespace Scheduler

def ofPolicy (policy : Policy) (config : Config) : Except Refusal Scheduler :=
  match policy with
  | .fcfs => .ok fcfs
  | .sjf => .ok sjf
  | .srtf => .ok srtf
  | .priority => .ok priority
  | .preemptivePriority => .ok preemptivePriority
  | .roundRobin => config.requiredQuantum.map roundRobin
  | .agingRoundRobin =>
      config.requiredQuantum.map fun quantum => agingRoundRobin quantum config.agingStep

def policy : Scheduler → Policy
  | fcfs => .fcfs
  | sjf => .sjf
  | srtf => .srtf
  | priority => .priority
  | preemptivePriority => .preemptivePriority
  | roundRobin _ => .roundRobin
  | agingRoundRobin _ _ => .agingRoundRobin

def quantum? : Scheduler → Option Nat
  | roundRobin quantum => some quantum
  | agingRoundRobin quantum _ => some quantum
  | _ => none

/-- A job that has the CPU may lose it before it completes. -/
def isPreemptive : Scheduler → Bool
  | fcfs | sjf | priority => false
  | _ => true

def emptyQueue : Scheduler → ReadyQueue
  | fcfs | roundRobin _ => .emptyFifo
  | _ => .emptyRanked

def rank (scheduler : Scheduler) (job : Job) : Rank :=
  match scheduler with
  | fcfs | roundRobin _ => .arrivalOrder job
  | sjf | srtf => .lowestFirst job.remaining job
  | priority | preemptivePriority => .highestFirst job.priority job
  | agingRoundRobin _ _ => .highestFirst job.effectivePriority job

def displaces (scheduler : Scheduler) (candidate current : Job) : Bool :=
  match scheduler with
  | srtf => candidate.remaining < current.remaining
  | preemptivePriority => scheduler.rank current < scheduler.rank candidate
  | _ => false

def enqueue (scheduler : Scheduler) (machine : Machine) (id : Nat) : Checked Machine := do
  let job ← machine.job id
  machine.enqueue id (scheduler.rank job)

/-- A job that gets the CPU loses what waiting has added to its priority. -/
def restorePriority (scheduler : Scheduler) (machine : Machine) (id : Nat) :
    Checked Machine :=
  match scheduler with
  | agingRoundRobin _ _ => do
      let job ← machine.job id
      return machine.put id { job with effectivePriority := job.priority }
  | _ => .ok machine

def fillCpu (scheduler : Scheduler) (machine : Machine) : Checked Machine :=
  match machine.pop with
  | (none, machine) => .ok machine
  | (some id, machine) => do
      let machine ← scheduler.restorePriority machine id
      machine.start id

def contest (scheduler : Scheduler) (machine : Machine) (currentId : Nat) :
    Checked Machine :=
  match machine.ready.peek with
  | none => .ok machine
  | some candidateId => do
      let current ← machine.job currentId
      let candidate ← machine.job candidateId
      if scheduler.displaces candidate current then
        let (displaced, machine) ← machine.pop.2.preempt candidateId
        let machine ←
          match displaced with
          | none => .ok machine
          | some id => scheduler.enqueue machine id
        machine.start candidateId
      else
        return machine

def dispatch (scheduler : Scheduler) (machine : Machine) : Checked Machine :=
  match machine.cpu.current with
  | none => scheduler.fillCpu machine
  | some current =>
      match scheduler with
      | srtf | preemptivePriority => scheduler.contest machine current
      | _ => .ok machine

/-- A job has waited for the length of a slice: its priority grows as far as
the word allows, and its place in the queue with it. -/
def age (scheduler : Scheduler) (step : Nat) (machine : Machine) (id : Nat) :
    Checked Machine := do
  let job ← machine.job id
  let aged :=
    { job with effectivePriority := min (job.effectivePriority + step) (prioritySize - 1) }
  let machine := machine.put id aged
  return { machine with ready := (machine.ready.rerank id (scheduler.rank aged)).2 }

def endSlice (scheduler : Scheduler) (machine : Machine) : Checked Machine :=
  match scheduler with
  | agingRoundRobin _ step =>
      if step = 0 then .ok machine
      else machine.ready.ids.foldlM (scheduler.age step) machine
  | _ => .ok machine

def requeueExpired (scheduler : Scheduler) (machine : Machine) : Checked Machine := do
  let (expired, machine) ← machine.expireSlice
  match expired with
  | none => return machine
  | some id => scheduler.enqueue machine id

/-- Whether a slice ends is known once the current job has worked. -/
def closeTick (scheduler : Scheduler) (work : Work) (machine : Machine) : Checked Machine :=
  match work with
  | .idle => .ok machine
  | .completed _ => scheduler.endSlice machine
  | .ran _ =>
      match scheduler.quantum? with
      | none => .ok machine
      | some quantum =>
          if quantum ≤ machine.cpu.sliceUsed then scheduler.endSlice machine.markExpired
          else .ok machine

end Scheduler

end CpuScheduling
