import CpuScheduling.Proofs.Lineup.Conversion
import CpuScheduling.Proofs.Lineup.Isolation
import CpuScheduling.Proofs.Lineup.Run
import CpuScheduling.Proofs.Simulation.FinalBooks

/-!
Under preemption by priority the jobs that matter at least so much have the CPU when they
would have it without the others, and their books are the same.
-/

namespace CpuScheduling

/-- The jobs that matter at least so much, as a workload of their own. -/
def urgentPart (workload : List Spec) (least : Nat) : List Spec :=
  workload.filter (least ≤ ·.priority.toNat)

def urgentJobs (workload : List Spec) (least : Nat) : List Job :=
  (Job.ofWorkload workload).filter (least ≤ ·.priority)

/-- The id in the whole workload of the job that has an id in the urgent part. -/
def idAmongAll (workload : List Spec) (least : Nat) : Nat → Nat
  | 0 => 0
  | index + 1 => (urgentJobs workload least)[index]?.elim 0 (·.id)

def isUrgentId (workload : List Spec) (least : Nat) : Nat → Bool
  | 0 => false
  | index + 1 => workload[index]?.any (least ≤ ·.priority.toNat)

/-- The urgent jobs of one schedule do as they do in the other one, which has no others. -/
structure Schedule.Isolates (workload : List Spec) (least : Nat) (schedule other : Schedule) :
    Prop where
  record : (schedule.trace.toList.take other.trace.size).map
      (fun entry => { entry with occupant := entry.occupant.filter (isUrgentId workload least) }) =
    other.trace.toList.map
      fun entry => { entry with occupant := entry.occupant.map (idAmongAll workload least) }
  after : ∀ entry ∈ schedule.trace.toList.drop other.trace.size, ∀ id,
    entry.occupant = some id → isUrgentId workload least id = false
  jobs : schedule.jobs.filter (least ≤ ·.priority) =
    other.jobs.map (·.renamed (idAmongAll workload least))

section Workloads

variable {workload : List Spec} {least : Nat}

theorem getElem?_filter_number (first index : Nat) :
    ((Job.number first workload).filter (least ≤ ·.priority))[index]? =
      (urgentPart workload least)[index]?.map (Job.ofSpec
        (((Job.number first workload).filter (least ≤ ·.priority))[index]?.elim 0 (·.id))) := by
  induction workload generalizing first index with
  | nil => rfl
  | cons spec rest inductionHypothesis =>
      have priority : (Job.ofSpec first spec).priority = spec.priority.toNat := rfl
      simp only [Job.number, urgentPart, List.filter_cons, priority] at inductionHypothesis ⊢
      split
      · cases index with
        | zero => rfl
        | succ index => exact inductionHypothesis (first + 1) index
      · exact inductionHypothesis (first + 1) index

theorem getElem?_urgentJobs (workload : List Spec) (least index : Nat) :
    (urgentJobs workload least)[index]? = (urgentPart workload least)[index]?.map
      (Job.ofSpec (idAmongAll workload least (index + 1))) :=
  getElem?_filter_number 1 index

theorem ofWorkload_urgentPart (workload : List Spec) (least : Nat) :
    (Job.ofWorkload (urgentPart workload least)).map (·.renamed (idAmongAll workload least)) =
      urgentJobs workload least := by
  apply List.ext_getElem?
  intro index
  rw [getElem?_urgentJobs, List.getElem?_map, Job.getElem?_ofWorkload, Option.map_map]
  rfl

theorem tasksAt_urgentPart (workload : List Spec) (least time : Nat) :
    (tasksAt (urgentPart workload least) time).map (·.renamed (idAmongAll workload least)) =
      (tasksAt workload time).filter (·.isUrgent least) := by
  have tasks (jobs : List Job) : (jobs.filter (·.arrival = time)).map
      (fun job => job.task.renamed (idAmongAll workload least)) =
        ((jobs.map (·.renamed (idAmongAll workload least))).filter (·.arrival = time)).map
          Job.task := by
    rw [List.filter_map, List.map_map]
    rfl
  rw [tasksAt, List.map_map, Function.comp_def, tasks, ofWorkload_urgentPart, urgentJobs, tasksAt,
    List.filter_map, List.filter_filter, List.filter_filter]
  refine congrArg (List.map _) (List.filter_congr fun job _ => ?_)
  exact Bool.and_comm _ _

theorem idAmongAll_lt {first second : Nat} {spec other : Spec}
    (isFirst : (urgentPart workload least)[first]? = some spec)
    (isSecond : (urgentPart workload least)[second]? = some other) (before : first < second) :
    idAmongAll workload least (first + 1) < idAmongAll workload least (second + 1) := by
  have increasing : (urgentJobs workload least).Pairwise fun first second =>
      first.id < second.id := by
    refine List.Pairwise.filter _ (List.pairwise_map.mp ?_)
    rw [Job.map_id_ofWorkload]
    exact List.pairwise_lt_range'
  have firstJob := getElem?_urgentJobs workload least first
  have secondJob := getElem?_urgentJobs workload least second
  rw [isFirst] at firstJob
  rw [isSecond] at secondJob
  obtain ⟨inside, isJob⟩ := List.getElem?_eq_some_iff.mp firstJob
  obtain ⟨otherInside, isOther⟩ := List.getElem?_eq_some_iff.mp secondJob
  have order := List.pairwise_iff_getElem.mp increasing first second inside otherInside before
  rw [isJob, isOther] at order
  exact order

theorem renames_idAmongAll (workload : List Spec) (least : Nat) (scheduler : Scheduler) :
    Renames scheduler (Task.Submitted (urgentPart workload least)) (idAmongAll workload least) where
  lasting := submitted_lasting (urgentPart workload least) scheduler
  order := by
    rintro first second ⟨job, submitted, isId, _⟩ ⟨other, alsoSubmitted, otherId, _⟩ _ before
    obtain ⟨index, spec, listed, rfl⟩ := Job.mem_ofWorkload.mp submitted
    obtain ⟨otherIndex, otherSpec, otherListed, rfl⟩ := Job.mem_ofWorkload.mp alsoSubmitted
    rw [isId, otherId] at before ⊢
    exact idAmongAll_lt listed otherListed (Nat.lt_of_succ_lt_succ before)

theorem isUrgentId_eq (least : Nat) {task : Task} (submitted : task.Submitted workload) :
    isUrgentId workload least task.id = task.isUrgent least := by
  obtain ⟨job, isSubmitted, isId, _, priority⟩ := submitted
  obtain ⟨index, spec, listed, rfl⟩ := Job.mem_ofWorkload.mp isSubmitted
  rw [isId, Task.isUrgent, priority]
  simp only [isUrgentId, Job.ofSpec, listed, Option.any_some]
  rfl

end Workloads

section Runs

variable {workload : List Spec} {least : Nat} {config : Config} {schedule other : Schedule}

variable (ran : simulate workload config .preemptivePriority = .ok schedule)
  (otherRan : simulate (urgentPart workload least) config .preemptivePriority = .ok other)

include ran otherRan

/-- The urgent jobs have the same ticks, and nobody else has any of theirs. -/
theorem occupantAt_urgentPart (time : Nat) :
    (occupantAt schedule.trace time).filter (isUrgentId workload least) =
      (occupantAt other.trace time).map (idAmongAll workload least) := by
  have renamed := (renames_idAmongAll workload least .preemptivePriority).occupant
    (submitted_tasksAt (urgentPart workload least)) time
  have isolated := Lineup.urgent_during least (tasksAt workload) time
  rw [funext (tasksAt_urgentPart workload least), ← isolated] at renamed
  rw [occupantAt_of_simulate rfl ran, occupantAt_of_simulate rfl otherRan, ← renamed]
  have every := Lineup.Every.during (submitted_lasting workload .preemptivePriority)
    (submitted_tasksAt workload) time
  cases holder : (Lineup.during .preemptivePriority (tasksAt workload) time).holder with
  | none => simp [Lineup.occupant, Lineup.urgent, holder]
  | some tenure =>
      have isUrgent := isUrgentId_eq least (every.holder tenure holder)
      cases urgent : tenure.task.isUrgent least <;>
        simp [Lineup.occupant, Lineup.urgent, holder, Option.filter, isUrgent, urgent]

theorem size_urgentPart_le : other.trace.size ≤ schedule.trace.size := by
  obtain ⟨last, id, isLast, holds⟩ := exists_last_occupant otherRan
  have isolated := occupantAt_urgentPart ran otherRan last
  rw [holds, Option.map_some, Option.filter_eq_some_iff] at isolated
  have inTrace := Chronological.lt_size_of_occupantAt isolated.1
  have size := (chronological_of_simulate otherRan).2
  omega

theorem heldTicks_urgentPart {job : Job}
    (submitted : job ∈ Job.ofWorkload (urgentPart workload least)) :
    heldTicks other.trace job.id = heldTicks schedule.trace (idAmongAll workload least job.id) := by
  have urgent : job.renamed (idAmongAll workload least) ∈ urgentJobs workload least := by
    rw [← ofWorkload_urgentPart]
    exact List.mem_map_of_mem submitted
  obtain ⟨_, _, _, traced⟩ := traced_of_submitted ran (List.mem_filter.mp urgent).1
  obtain ⟨_, _, _, otherTraced⟩ := traced_of_submitted otherRan submitted
  have ordered := (chronological_of_simulate ran).1
  have otherOrdered := (chronological_of_simulate otherRan).1
  refine otherOrdered.heldTicks_eq_of_subset ordered (fun time holds => ?_) ?_
  · have isolated := occupantAt_urgentPart ran otherRan time
    rw [holds, Option.map_some, Option.filter_eq_some_iff] at isolated
    exact isolated.1
  · exact Nat.le_of_eq (traced.held.trans otherTraced.held.symm)

end Runs

/-- Under preemption by priority, jobs that matter less show neither in the ticks nor in the
books of the others. -/
theorem simulate_isolated {workload : List Spec} {least : Nat} {config : Config}
    {schedule other : Schedule}
    (ran : simulate workload config .preemptivePriority = .ok schedule)
    (otherRan : simulate (urgentPart workload least) config .preemptivePriority = .ok other) :
    schedule.Isolates workload least other := by
  have ordered := (chronological_of_simulate ran).1
  have otherOrdered := (chronological_of_simulate otherRan).1
  have shorter := size_urgentPart_le ran otherRan
  have isolated := occupantAt_urgentPart ran otherRan
  refine ⟨?_, fun entry late id holds => ?_, ?_⟩
  · rw [ordered.toList_eq, otherOrdered.toList_eq, ← List.map_take, List.take_range,
      Nat.min_eq_left shorter, List.map_map, List.map_map]
    exact List.map_congr_left fun time _ => congrArg (TraceEntry.mk time) (isolated time)
  · obtain ⟨index, listed⟩ := List.mem_iff_getElem?.mp late
    rw [List.getElem?_drop, Array.getElem?_toList] at listed
    have occupant : occupantAt schedule.trace (other.trace.size + index) = some id := by
      rw [occupantAt, listed, Option.bind_some, holds]
    have nobody := isolated (other.trace.size + index)
    rw [occupant, occupantAt_of_size_le (Nat.le_add_right _ index)] at nobody
    simpa [Option.filter] using nobody
  · have urgentBooks : schedule.jobs.filter (least ≤ ·.priority) = (urgentJobs workload least).map
        fun job => job.closed (heldTicks schedule.trace job.id) := by
      rw [jobs_of_simulate ran, List.filter_map]
      rfl
    rw [urgentBooks, ← ofWorkload_urgentPart, jobs_of_simulate otherRan, List.map_map, List.map_map]
    refine List.map_congr_left fun job submitted => ?_
    have held := heldTicks_urgentPart ran otherRan submitted
    simp only [Function.comp_apply, held]
    rfl

/-- A job that matters less is displaced, and another one waits for the urgent jobs.  The
latter have the same ticks without them. -/
theorem simulate_isolated_displacing :
    ∃ schedule other,
      simulate [⟨0, 4, 1⟩, ⟨1, 2, 5⟩, ⟨2, 1, 0⟩, ⟨2, 2, 7⟩] {} .preemptivePriority = .ok schedule ∧
      simulate [⟨1, 2, 5⟩, ⟨2, 2, 7⟩] {} .preemptivePriority = .ok other ∧
      schedule.timeline = [some 1, some 2, some 4, some 4, some 2, some 1, some 1, some 1, some 3] ∧
      other.timeline = [none, some 1, some 2, some 2, some 1] ∧
      schedule.jobs.filter (5 ≤ ·.priority) = other.jobs.map
        (·.renamed (idAmongAll [⟨0, 4, 1⟩, ⟨1, 2, 5⟩, ⟨2, 1, 0⟩, ⟨2, 2, 7⟩] 5)) := by
  have runs : (simulate [⟨0, 4, 1⟩, ⟨1, 2, 5⟩, ⟨2, 1, 0⟩, ⟨2, 2, 7⟩] {}
      .preemptivePriority).toOption.map Schedule.timeline =
        some [some 1, some 2, some 4, some 4, some 2, some 1, some 1, some 1, some 3] := by
    decide +kernel
  have otherRuns : (simulate [⟨1, 2, 5⟩, ⟨2, 2, 7⟩] {} .preemptivePriority).toOption.map
      Schedule.timeline = some [none, some 1, some 2, some 2, some 1] := by
    decide +kernel
  obtain ⟨schedule, ran, timeline⟩ := exists_of_timeline runs
  obtain ⟨other, otherRan, otherTimeline⟩ := exists_of_timeline otherRuns
  have isolates : schedule.Isolates [⟨0, 4, 1⟩, ⟨1, 2, 5⟩, ⟨2, 1, 0⟩, ⟨2, 2, 7⟩] 5 other :=
    simulate_isolated ran otherRan
  exact ⟨schedule, other, ran, otherRan, timeline, otherTimeline, isolates.jobs⟩

end CpuScheduling
