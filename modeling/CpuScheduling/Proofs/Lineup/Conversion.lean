import CpuScheduling.Proofs.Lineup.Basic

/-!
Line-ups of converted tasks.  Where a conversion is faithful, it tells no policy anything
new: each decision about the converted tasks is the one about the tasks themselves.  Ids
can be renumbered in this way, and times measured in another unit.
-/

namespace CpuScheduling

def Tenure.converted (convert : Task → Task) (count : Nat → Nat) (tenure : Tenure) : Tenure where
  task := convert tenure.task
  used := count tenure.used

def Lineup.converted (convert : Task → Task) (count : Nat → Nat) (lineup : Lineup) : Lineup where
  holder := lineup.holder.map (·.converted convert count)
  waiting := lineup.waiting.map convert

/-- Two policies decide alike: one about the tasks that are known, the other about what
they are converted to. -/
structure Faithful (scheduler other : Scheduler) (known : Task → Prop) (convert : Task → Task)
    (count : Nat → Nat) : Prop where
  lasting : Task.Lasting scheduler known
  precedes : ∀ first second, known first → known second →
    other.precedes (convert first) (convert second) = scheduler.precedes first second
  overtakes : ∀ front holder, known front → known holder →
    other.overtakes (convert front) (convert holder) = scheduler.overtakes front holder
  usesUp : ∀ used, other.usesUp (count used) = scheduler.usesUp used
  unused : count 0 = 0
  picked : ∀ task, (convert task).picked other = convert (task.picked scheduler)
  reorder : ∀ waiting, (∀ task ∈ waiting, known task) →
    other.reorder (waiting.map convert) = (scheduler.reorder waiting).map convert

/-- Where criteria compare alike, and the tasks have come in the same order, policies rank alike. -/
theorem Scheduler.precedes_congr {scheduler other : Scheduler} {first second early late : Task}
    (ranked : other.isRanked = scheduler.isRanked)
    (higher : other.criterion late < other.criterion early ↔
      scheduler.criterion second < scheduler.criterion first)
    (lower : other.criterion early < other.criterion late ↔
      scheduler.criterion first < scheduler.criterion second)
    (order : early.comesBefore late = first.comesBefore second) :
    other.precedes early late = scheduler.precedes first second := by
  have same : other.criterion early = other.criterion late ↔
      scheduler.criterion first = scheduler.criterion second := by omega
  simp only [precedes, ranked, higher, same, order]

theorem Scheduler.reorder_map {quantum otherQuantum step : Nat} {convert : Task → Task}
    {waiting : List Task}
    (waits : ∀ task, (convert task).waited (agingRoundRobin otherQuantum step) =
      convert (task.waited (agingRoundRobin quantum step)))
    (order : ∀ first ∈ waiting, ∀ second ∈ waiting,
      (agingRoundRobin otherQuantum step).precedes
          (convert (first.waited (agingRoundRobin quantum step)))
          (convert (second.waited (agingRoundRobin quantum step))) =
        (agingRoundRobin quantum step).precedes (first.waited (agingRoundRobin quantum step))
          (second.waited (agingRoundRobin quantum step))) :
    (agingRoundRobin otherQuantum step).reorder (waiting.map convert) =
      ((agingRoundRobin quantum step).reorder waiting).map convert := by
  have sameTasks : (waiting.map convert).map (·.waited (agingRoundRobin otherQuantum step)) =
      (waiting.map (·.waited (agingRoundRobin quantum step))).map convert := by
    simp only [List.map_map, Function.comp_def, waits]
  rw [reorder, sameTasks, reorder]
  refine sortByInsertion_map fun first isFirst second isSecond => ?_
  obtain ⟨early, isEarly, rfl⟩ := List.mem_map.mp isFirst
  obtain ⟨other, isOther, rfl⟩ := List.mem_map.mp isSecond
  exact order early isEarly other isOther

namespace Lineup

variable {scheduler other : Scheduler} {known : Task → Prop} {convert : Task → Task}
  {count : Nat → Nat} {lineup : Lineup} {task : Task} {tasks : List Task}

variable (faithful : Faithful scheduler other known convert count)

include faithful

theorem insertSorted_converted {waiting : List Task} (isKnown : known task)
    (all : ∀ task ∈ waiting, known task) :
    insertSorted other.precedes (convert task) (waiting.map convert) =
      (insertSorted scheduler.precedes task waiting).map convert :=
  insertSorted_map fun next member => faithful.precedes task next isKnown (all next member)

theorem join_converted (isKnown : known task) (all : lineup.Every known) :
    (lineup.converted convert count).join other (convert task) =
      (lineup.join scheduler task).converted convert count := by
  simp only [join, converted, insertSorted_converted faithful isKnown all.waiting]

theorem joinAll_converted (isKnown : ∀ task ∈ tasks, known task) (all : lineup.Every known) :
    (tasks.map convert).foldl (join other) (lineup.converted convert count) =
      (tasks.foldl (join scheduler) lineup).converted convert count := by
  induction tasks generalizing lineup with
  | nil => rfl
  | cons first rest inductionHypothesis =>
      have isFirst := isKnown first List.mem_cons_self
      rw [List.map_cons, List.foldl_cons, List.foldl_cons, join_converted faithful isFirst all]
      exact inductionHypothesis (fun task member => isKnown task (List.mem_cons_of_mem first member))
        (all.join isFirst)

theorem requeue_converted (all : lineup.Every known) :
    (lineup.converted convert count).requeue other =
      (lineup.requeue scheduler).converted convert count := by
  cases holder : lineup.holder with
  | none => simp [requeue, converted, holder]
  | some tenure =>
      have inserted := insertSorted_converted faithful (all.holder tenure holder) all.waiting
      simp only [requeue, converted, holder, Option.map_some, Tenure.converted, faithful.usesUp,
        inserted]
      cases scheduler.usesUp tenure.used <;> simp [holder]

theorem gather_converted (isKnown : ∀ task ∈ tasks, known task) (all : lineup.Every known) :
    (lineup.converted convert count).gather other (tasks.map convert) =
      (lineup.gather scheduler tasks).converted convert count := by
  rw [gather, joinAll_converted faithful isKnown all,
    requeue_converted faithful (all.joinAll isKnown), gather]

theorem dispatch_converted (all : lineup.Every known) :
    (lineup.converted convert count).dispatch other =
      (lineup.dispatch scheduler).converted convert count := by
  cases waiting : lineup.waiting with
  | nil => simp [dispatch, converted, waiting]
  | cons front rest =>
      have isFront := all.waiting front (by simp [waiting])
      have others : ∀ task ∈ rest, known task := fun task member =>
        all.waiting task (by simp [waiting, member])
      cases holder : lineup.holder with
      | none =>
          simp [dispatch, converted, waiting, holder, Tenure.converted, faithful.picked,
            faithful.unused]
      | some tenure =>
          have isHolder := all.holder tenure holder
          have inserted := insertSorted_converted faithful isHolder others
          simp only [dispatch, converted, waiting, holder, List.map_cons, Option.map_some,
            Tenure.converted, faithful.overtakes front tenure.task isFront isHolder, inserted]
          cases scheduler.overtakes front tenure.task <;>
            simp [waiting, holder, faithful.unused]

theorem assign_converted (isKnown : ∀ task ∈ tasks, known task) (all : lineup.Every known) :
    (lineup.converted convert count).assign other (tasks.map convert) =
      (lineup.assign scheduler tasks).converted convert count := by
  rw [assign, gather_converted faithful isKnown all,
    dispatch_converted faithful (all.gather isKnown), assign]

end Lineup

theorem Lineup.occupant_converted {convert : Task → Task} {rename : Nat → Nat}
    (named : ∀ task, (convert task).id = rename task.id) (count : Nat → Nat) (lineup : Lineup) :
    (lineup.converted convert count).occupant = lineup.occupant.map rename := by
  cases holder : lineup.holder <;> simp [occupant, converted, holder, Tenure.converted, named]

structure Task.KeepsWork (convert : Task → Task) : Prop where
  remaining : ∀ task, (convert task).remaining = task.remaining
  worked : ∀ task, (convert task).worked = convert task.worked

namespace Lineup

variable {scheduler other : Scheduler} {known : Task → Prop} {convert : Task → Task}
  {lineup : Lineup} {come : Nat → List Task}

variable (faithful : Faithful scheduler other known convert id) (keeps : Task.KeepsWork convert)

include faithful keeps

theorem work_converted (all : lineup.Every known) :
    (lineup.converted convert id).work other = (lineup.work scheduler).converted convert id := by
  have reordered := faithful.reorder lineup.waiting all.waiting
  cases holder : lineup.holder with
  | none => simp [work, converted, holder]
  | some tenure =>
      have goesOn : (tenure.converted convert id).worked = tenure.worked.converted convert id :=
        congrArg (Tenure.mk · (tenure.used + 1)) (keeps.worked tenure.task)
      have left : (tenure.converted convert id).task.remaining = tenure.task.remaining :=
        keeps.remaining tenure.task
      have slice : other.usesUp ((tenure.converted convert id).used + 1) =
          scheduler.usesUp (tenure.used + 1) := faithful.usesUp (tenure.used + 1)
      simp only [work, converted, holder, Option.map_some, goesOn, left, slice, reordered]
      split
      · rfl
      · cases scheduler.usesUp (tenure.used + 1) <;> rfl

/-- Where the tasks that come are converted, those that are there are converted too. -/
theorem before_converted (new : ∀ time, ∀ task ∈ come time, known task) (time : Nat) :
    before other (fun time => (come time).map convert) time =
      (before scheduler come time).converted convert id := by
  induction time with
  | zero => rfl
  | succ time inductionHypothesis =>
      have all := Every.before faithful.lasting new time
      have assigned := assign_converted faithful (new time) all
      rw [before, inductionHypothesis, assigned, before_succ, during]
      exact work_converted faithful keeps ((all.gather (new time)).dispatch faithful.lasting)

theorem during_converted (new : ∀ time, ∀ task ∈ come time, known task) (time : Nat) :
    during other (fun time => (come time).map convert) time =
      (during scheduler come time).converted convert id := by
  rw [during, before_converted faithful keeps new]
  exact assign_converted faithful (new time) (Every.before faithful.lasting new time)

end Lineup

section Renaming

variable {scheduler : Scheduler} {known : Task → Prop} {rename : Nat → Nat} {lineup : Lineup}

def Task.renamed (rename : Nat → Nat) (task : Task) : Task :=
  { task with id := rename task.id }

def Job.renamed (rename : Nat → Nat) (job : Job) : Job :=
  { job with id := rename job.id }

structure Renames (scheduler : Scheduler) (known : Task → Prop) (rename : Nat → Nat) : Prop where
  lasting : Task.Lasting scheduler known
  order : ∀ first second, known first → known second → first.arrival = second.arrival →
    first.id < second.id → rename first.id < rename second.id

namespace Renames

variable (renames : Renames scheduler known rename)

include renames

theorem id_le_iff {first second : Task} (isFirst : known first) (isSecond : known second)
    (together : first.arrival = second.arrival) :
    rename first.id ≤ rename second.id ↔ first.id ≤ second.id := by
  rcases Nat.lt_trichotomy first.id second.id with before | same | after
  · have kept := renames.order first second isFirst isSecond together before
    exact iff_of_true (Nat.le_of_lt kept) (Nat.le_of_lt before)
  · rw [same]
    exact iff_of_true (Nat.le_refl _) (Nat.le_refl _)
  · have kept := renames.order second first isSecond isFirst together.symm after
    exact iff_of_false (Nat.not_le_of_lt kept) (Nat.not_le_of_lt after)

theorem comesBefore {first second : Task} (isFirst : known first) (isSecond : known second) :
    (first.renamed rename).comesBefore (second.renamed rename) = first.comesBefore second := by
  rw [Bool.eq_iff_iff, Task.comesBefore_iff, Task.comesBefore_iff]
  simp only [Task.renamed]
  by_cases together : first.arrival = second.arrival
  · simp only [together, renames.id_le_iff isFirst isSecond together]
  · simp only [together, false_and]

theorem precedes {first second : Task} (isFirst : known first) (isSecond : known second) :
    scheduler.precedes (first.renamed rename) (second.renamed rename) =
      scheduler.precedes first second := by
  have criterion (task : Task) :
      scheduler.criterion (task.renamed rename) = scheduler.criterion task := by
    cases scheduler <;> rfl
  refine Scheduler.precedes_congr rfl ?_ ?_ (renames.comesBefore isFirst isSecond)
  · rw [criterion, criterion]
  · rw [criterion, criterion]

theorem faithful : Faithful scheduler scheduler known (·.renamed rename) id where
  lasting := renames.lasting
  precedes _ _ isFirst isSecond := renames.precedes isFirst isSecond
  overtakes front holder isFront isHolder := by
    cases scheduler with
    | preemptivePriority =>
        simp only [Scheduler.overtakes]
        rw [renames.precedes isHolder isFront]
    | _ => rfl
  usesUp _ := rfl
  unused := rfl
  picked _ := by cases scheduler <;> rfl
  reorder waiting all := by
    cases scheduler with
    | agingRoundRobin quantum step =>
        refine Scheduler.reorder_map (fun task => ?_) fun first isFirst second isSecond => ?_
        · simp only [Task.waited]
          split <;> rfl
        · exact renames.precedes (renames.lasting.waited first (all first isFirst))
            (renames.lasting.waited second (all second isSecond))
    | _ => rfl

theorem occupant {come : Nat → List Task} (new : ∀ time, ∀ task ∈ come time, known task)
    (time : Nat) :
    (Lineup.during scheduler (fun time => (come time).map (·.renamed rename)) time).occupant =
      (Lineup.during scheduler come time).occupant.map rename := by
  have keeps : Task.KeepsWork (·.renamed rename) := ⟨fun _ => rfl, fun _ => rfl⟩
  rw [Lineup.during_converted renames.faithful keeps new]
  exact Lineup.occupant_converted (fun _ => rfl) id _

end Renames

end Renaming

end CpuScheduling
