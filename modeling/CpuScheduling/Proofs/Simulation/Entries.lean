import CpuScheduling.Proofs.Simulation.ShortestFirst
import CpuScheduling.Proofs.Simulation.Slices

/-!
The entries of a run into its ready queue.  A job enters as it arrives and again whenever a slice
has left it unfinished; of two that enter in one tick, the one that arrives is first.
-/

namespace CpuScheduling

structure Entry where
  time : Nat
  job : Nat
  returns : Bool
  deriving DecidableEq

namespace Entry

/-- Entries go by time; within a tick those who arrive go by id, and ahead of who returns. -/
def before (first second : Entry) : Bool :=
  first.time < second.time ||
    first.time = second.time &&
      (!first.returns && second.returns ||
        first.returns == second.returns && first.job ≤ second.job)

def ofArrival (job : Job) : Entry :=
  ⟨job.arrival, job.id, false⟩

def ofReturn (quantum : Nat) (slice : Slice) : Entry :=
  ⟨slice.start + quantum, slice.job, true⟩

variable {first second : Entry}

theorem before_iff : first.before second = true ↔ first.time < second.time ∨
    first.time = second.time ∧
      (first.returns = false ∧ second.returns = true ∨
        first.returns = second.returns ∧ first.job ≤ second.job) := by
  simp [before]

theorem before_total (first second : Entry) : first.before second ∨ second.before first := by
  simp only [before_iff]
  cases first.returns <;> cases second.returns <;> simp <;> omega

theorem before_trans (first second third : Entry) :
    first.before second → second.before third → first.before third := by
  simp only [before_iff]
  cases first.returns <;> cases second.returns <;> cases third.returns <;> simp <;> omega

theorem before_antisymm (early : first.before second) (late : second.before first) :
    first = second := by
  obtain ⟨time, job, returns⟩ := first
  obtain ⟨otherTime, otherJob, otherReturns⟩ := second
  rw [before_iff] at early late
  cases returns <;> cases otherReturns <;> simp at early late ⊢ <;> omega

theorem time_le_of_before (before : first.before second) : first.time ≤ second.time := by
  rw [before_iff] at before
  omega

theorem before_ofArrival {first second : Job} (before : Simulation.arrivesBefore first second) :
    (ofArrival first).before (ofArrival second) := by
  rw [arrivesBefore_iff] at before
  exact before_iff.mpr (before.imp_right (And.imp_right fun byId => .inr ⟨rfl, byId⟩))

end Entry

def Slice.Unfinished (workload : List Spec) (record : Array TraceEntry) (slice : Slice) : Prop :=
  ∃ job ∈ Job.ofWorkload workload, job.id = slice.job ∧ 0 < job.leftBefore record slice.stop

instance (workload : List Spec) (record : Array TraceEntry) (slice : Slice) :
    Decidable (slice.Unfinished workload record) :=
  inferInstanceAs (Decidable (∃ job ∈ Job.ofWorkload workload, _))

/-- The entries of a run in their order: every job as it arrives, and again when a slice leaves it
unfinished. -/
def entries (workload : List Spec) (quantum : Nat) (record : Array TraceEntry)
    (slices : List Slice) : List Entry :=
  sortByInsertion Entry.before
    ((Job.ofWorkload workload).map .ofArrival ++
      (slices.filter (·.Unfinished workload record)).map (.ofReturn quantum))

def enteredIn (history : List (Nat × Event)) : List Entry :=
  history.filterMap fun
    | (time, .arrival job) => some ⟨time, job, false⟩
    | (time, .sliceExpired job) => some ⟨time, job, true⟩
    | _ => none

@[simp]
theorem enteredIn_append (history later : List (Nat × Event)) :
    enteredIn (history ++ later) = enteredIn history ++ enteredIn later :=
  List.filterMap_append

theorem time_of_enteredIn {time : Nat} {events : List Event} {entry : Entry}
    (entered : entry ∈ enteredIn (stamped time events)) : entry.time = time := by
  simp only [enteredIn, stamped, List.filterMap_map, List.mem_filterMap] at entered
  obtain ⟨event, _, isEntry⟩ := entered
  cases event <;> cases isEntry <;> rfl

end CpuScheduling
