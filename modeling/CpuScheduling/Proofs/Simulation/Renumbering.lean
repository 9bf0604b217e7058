import CpuScheduling.Proofs.Lineup.Conversion
import CpuScheduling.Proofs.Lineup.Run
import CpuScheduling.Proofs.Simulation.FinalBooks
import CpuScheduling.Proofs.Simulation.Switches
import Mathlib.Data.List.FinRange
import Mathlib.Logic.Equiv.Fin.Rotate

/-!
The order of submission matters to jobs that arrive together and to no others.  Where these
keep their order, a workload in another order gives the same outcome under other ids.
-/

namespace CpuScheduling

/-- The workload in another order: what stood at an index stands in its place. -/
def rearranged (workload : List Spec) (place : Equiv.Perm (Fin workload.length)) : List Spec :=
  List.ofFn fun index => workload[place.symm index]

/-- Entries that arrive together keep their order. -/
def KeepsTies (workload : List Spec) (place : Equiv.Perm (Fin workload.length)) : Prop :=
  ∀ first second, first < second → workload[first].arrival = workload[second].arrival →
    place first < place second

instance (workload : List Spec) (place : Equiv.Perm (Fin workload.length)) :
    Decidable (KeepsTies workload place) :=
  inferInstanceAs (Decidable (∀ first second : Fin workload.length, first < second →
    workload[first].arrival = workload[second].arrival → place first < place second))

def renumbered {count : Nat} (place : Equiv.Perm (Fin count)) : Nat → Nat
  | 0 => 0
  | index + 1 => if inside : index < count then place ⟨index, inside⟩ + 1 else index + 1

/-- One schedule is another one under other ids. -/
structure Schedule.RenumberedBy {count : Nat} (place : Equiv.Perm (Fin count))
    (schedule other : Schedule) : Prop where
  record : other.trace = schedule.trace.map fun entry =>
    { entry with occupant := entry.occupant.map (renumbered place) }
  contextSwitches : other.metrics.contextSwitches = schedule.metrics.contextSwitches
  totalTicks : other.metrics.totalTicks = schedule.metrics.totalTicks
  idleTicks : other.metrics.idleTicks = schedule.metrics.idleTicks
  jobs : ∀ index : Fin count, ∃ job, schedule.jobs[index.val]? = some job ∧
    other.jobs[(place index).val]? = some { job with id := place index + 1 }

theorem renumbered_succ {count : Nat} (place : Equiv.Perm (Fin count)) (index : Fin count) :
    renumbered place (index + 1) = place index + 1 := by
  simp [renumbered]

theorem renumbered_injective {count : Nat} (place : Equiv.Perm (Fin count)) :
    Function.Injective (renumbered place) := by
  intro first second same
  cases first with
  | zero =>
      cases second with
      | zero => rfl
      | succ index =>
          simp only [renumbered] at same
          split at same <;> cases same
  | succ index =>
      cases second with
      | zero =>
          simp only [renumbered] at same
          split at same <;> cases same
      | succ other =>
          simp only [renumbered] at same
          split at same
          next inside =>
            split at same
            next alsoInside =>
              have samePlace : place ⟨index, inside⟩ = place ⟨other, alsoInside⟩ :=
                Fin.ext (Nat.succ.inj same)
              simpa using place.injective samePlace
            next outside =>
              have bound := (place ⟨index, inside⟩).isLt
              omega
          next outside =>
            split at same
            next alsoInside =>
              have bound := (place ⟨other, alsoInside⟩).isLt
              omega
            next => exact same

section Workloads

variable {workload : List Spec} {place : Equiv.Perm (Fin workload.length)}

theorem getElem?_rearranged (index : Fin workload.length) :
    (rearranged workload place)[(place index).val]? = some workload[index] := by
  simp [rearranged]

theorem rearranged_perm (workload : List Spec) (place : Equiv.Perm (Fin workload.length)) :
    (rearranged workload place).Perm workload := by
  have same := Equiv.Perm.ofFn_comp_perm place.symm fun index => workload[index]
  simpa [rearranged, Function.comp_def] using same

theorem ofWorkload_rearranged_perm (workload : List Spec)
    (place : Equiv.Perm (Fin workload.length)) :
    (Job.ofWorkload (rearranged workload place)).Perm
      ((Job.ofWorkload workload).map (·.renamed (renumbered place))) := by
  have isMoved : Job.ofWorkload (rearranged workload place) =
      List.ofFn fun index : Fin workload.length =>
        Job.ofSpec (index + 1) workload[place.symm index] := by
    apply List.ext_getElem?
    intro index
    rw [Job.getElem?_ofWorkload, rearranged, List.getElem?_ofFn, List.getElem?_ofFn]
    split <;> rfl
  have isRenamed : (Job.ofWorkload workload).map (·.renamed (renumbered place)) =
      List.ofFn ((fun index : Fin workload.length =>
        Job.ofSpec (index + 1) workload[place.symm index]) ∘ place) := by
    apply List.ext_getElem?
    intro index
    rw [List.getElem?_map, Job.getElem?_ofWorkload, List.getElem?_ofFn]
    split
    next inside =>
      have isNext := renumbered_succ place ⟨index, inside⟩
      simp only at isNext
      simp [inside, Job.renamed, Job.ofSpec, isNext]
    next outside => simp [Nat.le_of_not_lt outside]
  rw [isMoved, isRenamed]
  exact (Equiv.Perm.ofFn_comp_perm place _).symm

variable (keeps : KeepsTies workload place)

include keeps

theorem renumbered_lt {first second : Job} (isFirst : first ∈ Job.ofWorkload workload)
    (isSecond : second ∈ Job.ofWorkload workload) (together : first.arrival = second.arrival)
    (before : first.id < second.id) : renumbered place first.id < renumbered place second.id := by
  obtain ⟨index, spec, listed, rfl⟩ := Job.mem_ofWorkload.mp isFirst
  obtain ⟨other, otherSpec, otherListed, rfl⟩ := Job.mem_ofWorkload.mp isSecond
  obtain ⟨inside, rfl⟩ := List.getElem?_eq_some_iff.mp listed
  obtain ⟨otherInside, rfl⟩ := List.getElem?_eq_some_iff.mp otherListed
  have isNext := renumbered_succ place ⟨index, inside⟩
  have otherNext := renumbered_succ place ⟨other, otherInside⟩
  have kept := keeps ⟨index, inside⟩ ⟨other, otherInside⟩ (Nat.lt_of_succ_lt_succ before)
    (UInt64.toNat_inj.mp together)
  simp only at isNext otherNext
  simp only [Job.ofSpec, isNext, otherNext]
  exact Nat.succ_lt_succ kept

theorem arrivals_rearranged :
    arrivals (rearranged workload place) =
      (arrivals workload).map (·.renamed (renumbered place)) := by
  have same : (arrivals (rearranged workload place)).Perm
      ((arrivals workload).map (·.renamed (renumbered place))) :=
    (arrivals_perm _).trans
      ((ofWorkload_rearranged_perm workload place).trans ((arrivals_perm workload).map _).symm)
  have sorted := pairwise_sortByInsertion arrivesBefore_total arrivesBefore_trans
    (Job.ofWorkload (rearranged workload place))
  have alsoSorted := pairwise_sortByInsertion arrivesBefore_total arrivesBefore_trans
    (Job.ofWorkload workload)
  refine same.eq_of_pairwise ?_ sorted (List.pairwise_map.mpr (alsoSorted.imp_of_mem ?_))
  · intro first second isFirst isSecond before after
    refine Job.eq_of_id (mem_arrivals.mp isFirst) (mem_arrivals.mp (same.mem_iff.mpr isSecond)) ?_
    rw [arrivesBefore_iff] at before after
    omega
  · intro first second isFirst isSecond before
    rw [arrivesBefore_iff] at before ⊢
    refine before.imp_right fun ⟨together, early⟩ => ⟨together, ?_⟩
    rcases Nat.eq_or_lt_of_le early with same | earlier
    · exact Nat.le_of_eq (congrArg (renumbered place) same)
    · exact Nat.le_of_lt (renumbered_lt keeps (mem_arrivals.mp isFirst) (mem_arrivals.mp isSecond)
        together earlier)

theorem makespan_rearranged : makespan (rearranged workload place) = makespan workload := by
  rw [makespan, makespan, drainTime, arrivals_rearranged keeps, List.foldl_map]
  rfl

/-- The same tasks come with each tick, and in the same order. -/
theorem tasksAt_rearranged (time : Nat) :
    tasksAt (rearranged workload place) time =
      (tasksAt workload time).map (·.renamed (renumbered place)) := by
  rw [tasksAt, ← filter_arrivals, arrivals_rearranged keeps, tasksAt, ← filter_arrivals,
    List.filter_map, List.map_map, List.map_map]
  rfl

theorem renames_renumbered (scheduler : Scheduler) :
    Renames scheduler (Task.Submitted workload) (renumbered place) where
  lasting := submitted_lasting workload scheduler
  order := by
    rintro first second ⟨job, submitted, isId, isArrival, _⟩ ⟨other, alsoSubmitted, otherId,
      otherArrival, _⟩ together before
    rw [isId, otherId] at before ⊢
    exact renumbered_lt keeps submitted alsoSubmitted
      (isArrival.symm.trans (together.trans otherArrival)) before

end Workloads

section Runs

variable {workload : List Spec} {config : Config} {policy : Policy}

theorem validate_of_perm {other : List Spec} (same : other.Perm workload)
    (valid : validate workload = .ok ()) : validate other = .ok () := by
  obtain ⟨nonempty, positive⟩ := Simulation.validate_eq_ok_iff.mp valid
  refine Simulation.validate_eq_ok_iff.mpr ⟨?_, fun spec member => ?_⟩
  · rintro rfl
    exact nonempty same.nil_eq.symm
  · exact positive spec (same.mem_iff.mp member)

theorem changes_map {rename : Nat → Nat} (injective : Function.Injective rename) (ids : List Nat) :
    changes (ids.map rename) = changes ids := by
  induction ids with
  | nil => rfl
  | cons first rest inductionHypothesis =>
      cases rest with
      | nil => rfl
      | cons second others =>
          simp only [List.map_cons, changes, injective.eq_iff] at inductionHypothesis ⊢
          rw [inductionHypothesis]

variable {place : Equiv.Perm (Fin workload.length)} {schedule other : Schedule}

section Renumbered

variable (keeps : KeepsTies workload place) (ran : simulate workload config policy = .ok schedule)
  (otherRan : simulate (rearranged workload place) config policy = .ok other)

include keeps ran otherRan

theorem occupantAt_rearranged (time : Nat) :
    occupantAt other.trace time = (occupantAt schedule.trace time).map (renumbered place) := by
  obtain ⟨scheduler, decides⟩ := exists_scheduler_of_simulate ran
  have renamed := (renames_renumbered keeps scheduler).occupant (submitted_tasksAt workload) time
  rw [occupantAt_of_simulate decides otherRan, occupantAt_of_simulate decides ran, ← renamed,
    funext (tasksAt_rearranged keeps)]

theorem heldTicks_rearranged (index : Fin workload.length) :
    heldTicks other.trace (place index + 1) = heldTicks schedule.trace (index + 1) := by
  have ordered := (chronological_of_simulate ran).1
  have otherOrdered := (chronological_of_simulate otherRan).1
  refine otherOrdered.heldTicks_eq_of_iff ordered fun time => ?_
  rw [occupantAt_rearranged keeps ran otherRan, ← renumbered_succ, ← Option.map_some,
    (Option.map_injective (renumbered_injective place)).eq_iff]

theorem renumbered_of_simulate : schedule.RenumberedBy place other := by
  obtain ⟨ordered, size⟩ := chronological_of_simulate ran
  obtain ⟨otherOrdered, otherSize⟩ := chronological_of_simulate otherRan
  obtain ⟨total, _, served⟩ := served_of_simulate ran
  obtain ⟨otherTotal, _, otherServed⟩ := served_of_simulate otherRan
  have takes := makespan_rearranged keeps
  have record : other.trace = schedule.trace.map fun entry =>
      { entry with occupant := entry.occupant.map (renumbered place) } := by
    apply Array.ext'
    rw [Array.toList_map, ordered.toList_eq, otherOrdered.toList_eq, otherSize, takes, size,
      List.map_map]
    exact List.map_congr_left fun time _ =>
      congrArg (TraceEntry.mk time) (occupantAt_rearranged keeps ran otherRan time)
  refine ⟨record, ?_, by rw [otherTotal, takes, total], ?_, fun index => ?_⟩
  · have renamed : occupants other.trace = (occupants schedule.trace).map (renumbered place) := by
      simp [occupants, record, List.filterMap_map, List.map_filterMap]
    rw [contextSwitches_of_simulate otherRan, contextSwitches_of_simulate ran, renamed,
      changes_map (renumbered_injective place)]
  · have work := ((rearranged_perm workload place).map (·.service.toNat)).sum_eq
    omega
  · have submitted : workload[index.val]? = some workload[index] :=
      List.getElem?_eq_getElem index.isLt
    have listed := getElem?_jobs_of_simulate ran index
    have otherListed := getElem?_jobs_of_simulate otherRan (place index)
    rw [submitted, Option.map_some] at listed
    rw [getElem?_rearranged, Option.map_some,
      heldTicks_rearranged keeps ran otherRan index] at otherListed
    exact ⟨_, listed, otherListed⟩

end Renumbered

/-- In another order of submission, those that arrive together apart, a request has the same
outcome, but for the ids. -/
theorem simulate_rearranged (valid : validate workload = .ok ())
    (keeps : KeepsTies workload place) :
    (∀ failure, simulate workload config policy = .error failure →
        simulate (rearranged workload place) config policy = .error failure) ∧
      ∀ schedule, simulate workload config policy = .ok schedule →
        ∃ other, simulate (rearranged workload place) config policy = .ok other ∧
          schedule.RenumberedBy place other := by
  have alsoValid := validate_of_perm (rearranged_perm workload place) valid
  have fate := simulate_of_makespan_eq config policy valid alsoValid (makespan_rearranged keeps)
  constructor
  · intro failure fails
    rwa [fails] at fate
  · intro schedule ran
    rw [ran] at fate
    obtain ⟨other, otherRan⟩ := fate
    exact ⟨other, otherRan, renumbered_of_simulate keeps ran otherRan⟩

/-- The last job is submitted first.  The second and the third one arrive together and keep
their order. -/
theorem simulate_rearranged_last_first :
    ∃ schedule other,
      simulate [⟨3, 2, 0⟩, ⟨0, 3, 1⟩, ⟨0, 3, 1⟩, ⟨1, 1, 0⟩] { quantum := some 2 }
        .agingRoundRobin = .ok schedule ∧
      simulate [⟨1, 1, 0⟩, ⟨3, 2, 0⟩, ⟨0, 3, 1⟩, ⟨0, 3, 1⟩] { quantum := some 2 }
        .agingRoundRobin = .ok other ∧
      schedule.timeline =
        [some 2, some 2, some 3, some 3, some 2, some 4, some 3, some 1, some 1] ∧
      other.timeline =
        [some 3, some 3, some 4, some 4, some 3, some 1, some 4, some 2, some 2] ∧
      other.metrics.contextSwitches = schedule.metrics.contextSwitches ∧
      schedule.RenumberedBy (finRotate 4) other := by
  have runs : (simulate [⟨3, 2, 0⟩, ⟨0, 3, 1⟩, ⟨0, 3, 1⟩, ⟨1, 1, 0⟩] { quantum := some 2 }
      .agingRoundRobin).toOption.map Schedule.timeline =
        some [some 2, some 2, some 3, some 3, some 2, some 4, some 3, some 1, some 1] := by
    decide +kernel
  have keeps : KeepsTies [⟨3, 2, 0⟩, ⟨0, 3, 1⟩, ⟨0, 3, 1⟩, ⟨1, 1, 0⟩] (finRotate 4) := by
    decide
  obtain ⟨schedule, ran, timeline⟩ := exists_of_timeline runs
  obtain ⟨other, otherRan, isRenumbered⟩ := (simulate_rearranged (by decide) keeps).2 schedule ran
  refine ⟨schedule, other, ran, otherRan, timeline, ?_, isRenumbered.contextSwitches, isRenumbered⟩
  have renamed : other.timeline = schedule.timeline.map (Option.map (renumbered (finRotate 4))) := by
    simp [Schedule.timeline, isRenumbered.record]
  rw [renamed, timeline]
  decide

end Runs

end CpuScheduling
