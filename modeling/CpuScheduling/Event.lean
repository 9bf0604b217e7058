import CpuScheduling.Job

/-!
What a run records: events as they happen, and for each tick who held the CPU.
-/

namespace CpuScheduling

inductive Event where
  | arrival (job : Nat)
  /-- `last` is who held the CPU before, if anyone ever did; the dispatch is a
  context switch where that was another job. -/
  | dispatch (job : Nat) (last : Option Nat) (switched : Bool)
  | preempt (job displacing : Nat)
  | sliceExpired (job : Nat)
  | complete (job : Nat) (time : Nat)
  | cpuIdle (ticks : Nat)
  deriving DecidableEq

structure TraceEntry where
  time : Nat
  occupant : Option Nat
  deriving DecidableEq

end CpuScheduling
