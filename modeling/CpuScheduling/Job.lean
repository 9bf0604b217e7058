import CpuScheduling.Checked

/-!
Jobs: what is submitted (`Spec`) and what the machine keeps about each
submitted job (`Job`).  A job is known by its id, a number from one
on in the order of submission.
-/

namespace CpuScheduling

structure Spec where
  arrival : UInt64
  service : UInt64
  /-- Larger numbers matter more. -/
  priority : UInt32 := 0
  deriving DecidableEq, Inhabited

inductive Phase where
  | pending
  | ready
  | running
  | finished
  deriving DecidableEq

/-- A submitted job and the books that the machine keeps about it.  The
five times at the end are unset until the event that they belong to. -/
structure Job where
  id : Nat
  arrival : Nat
  service : Nat
  priority : Nat
  /-- The priority with what waiting has added to it. -/
  effectivePriority : Nat
  phase : Phase
  remaining : Nat
  firstStart : Option Nat
  completion : Option Nat
  /-- Completion minus arrival. -/
  turnaround : Option Nat
  /-- Turnaround minus service. -/
  waiting : Option Nat
  /-- First start minus arrival. -/
  response : Option Nat
  deriving DecidableEq

namespace Job

def ofSpec (id : Nat) (spec : Spec) : Job where
  id := id
  arrival := spec.arrival.toNat
  service := spec.service.toNat
  priority := spec.priority.toNat
  effectivePriority := spec.priority.toNat
  phase := .pending
  remaining := spec.service.toNat
  firstStart := none
  completion := none
  turnaround := none
  waiting := none
  response := none

def number (first : Nat) : List Spec → List Job
  | [] => []
  | spec :: rest => ofSpec first spec :: number (first + 1) rest

def ofWorkload (workload : List Spec) : List Job :=
  number 1 workload

@[simp]
theorem length_number (first : Nat) (workload : List Spec) :
    (number first workload).length = workload.length := by
  induction workload generalizing first with
  | nil => rfl
  | cons spec rest inductionHypothesis => simp [number, inductionHypothesis]

@[simp]
theorem length_ofWorkload (workload : List Spec) :
    (ofWorkload workload).length = workload.length :=
  length_number 1 workload

theorem getElem?_number (first : Nat) (workload : List Spec) (index : Nat) :
    (number first workload)[index]? = workload[index]?.map (ofSpec (first + index)) := by
  induction workload generalizing first index with
  | nil => simp [number]
  | cons spec rest inductionHypothesis =>
      cases index with
      | zero => simp [number]
      | succ index =>
          simp only [number, List.getElem?_cons_succ, inductionHypothesis]
          rw [Nat.add_right_comm, Nat.add_assoc]

end Job

end CpuScheduling
