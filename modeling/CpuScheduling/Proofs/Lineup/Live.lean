import CpuScheduling.Proofs.Lineup.Run
import CpuScheduling.Proofs.Lineup.Undisturbed
import CpuScheduling.Proofs.Simulation.FinalBooks
import CpuScheduling.Proofs.Simulation.Optimality

/-!
Whom the line-ups of a run hold.  Under every policy they are the jobs that are live, that
is, have arrived and have work left, each of them once and with what is left of it.
-/

namespace CpuScheduling

/-- A job has arrived, and the ticks that it has had by then are not all that it needs. -/
def Job.Live (record : Array TraceEntry) (time : Nat) (job : Job) : Prop :=
  job.arrival ≤ time ∧ 0 < job.leftBefore record time

instance (record : Array TraceEntry) (time : Nat) (job : Job) : Decidable (job.Live record time) :=
  inferInstanceAs (Decidable (_ ∧ _))

/-- The first job stands higher than the second one, or it stands as high and comes first by
arrival and id. -/
def Job.Outranks (standing : Job → Nat) (first second : Job) : Prop :=
  standing second < standing first ∨
    standing first = standing second ∧
      (first.arrival < second.arrival ∨ first.arrival = second.arrival ∧ first.id < second.id)

def Job.taskBefore (record : Array TraceEntry) (time : Nat) (job : Job) : Task where
  id := job.id
  arrival := job.arrival
  remaining := job.leftBefore record time
  priority := job.priority
  effectivePriority := job.priority

def Task.plain (task : Task) : Task :=
  { task with effectivePriority := task.priority }

@[simp]
theorem Task.plain_picked (task : Task) (scheduler : Scheduler) :
    (task.picked scheduler).plain = task.plain := by
  cases scheduler <;> rfl

@[simp]
theorem Task.plain_waited (task : Task) (scheduler : Scheduler) :
    (task.waited scheduler).plain = task.plain := by
  cases scheduler with
  | agingRoundRobin quantum step =>
      simp only [waited]
      split <;> rfl
  | _ => rfl

theorem Scheduler.plain_reorder (scheduler : Scheduler) (waiting : List Task) :
    ((scheduler.reorder waiting).map Task.plain).Perm (waiting.map Task.plain) := by
  cases scheduler with
  | agingRoundRobin quantum step =>
      have sorted := (sortByInsertion_perm (agingRoundRobin quantum step).precedes
        (waiting.map (·.waited (agingRoundRobin quantum step)))).map Task.plain
      simpa [reorder, Function.comp_def] using sorted
  | _ => exact .refl _

variable {scheduler : Scheduler} {lineup : Lineup}

namespace Lineup

def members (lineup : Lineup) : List Task :=
  (lineup.holder.map (·.task)).toList ++ lineup.waiting

theorem mem_members_of_holder {tenure : Tenure} (isHolder : lineup.holder = some tenure) :
    tenure.task ∈ lineup.members := by
  simp [members, isHolder]

theorem mem_members_of_waiting {task : Task} (waits : task ∈ lineup.waiting) :
    task ∈ lineup.members :=
  List.mem_append_right _ waits

theorem members_join (task : Task) :
    (lineup.join scheduler task).members.Perm (task :: lineup.members) :=
  ((insertSorted_perm _ _ _).append_left _).trans List.perm_middle

theorem members_joinAll (tasks : List Task) :
    (tasks.foldl (join scheduler) lineup).members.Perm (tasks ++ lineup.members) := by
  induction tasks generalizing lineup with
  | nil => exact .refl _
  | cons task rest inductionHypothesis =>
      have joined : (rest ++ (lineup.join scheduler task).members).Perm
          (rest ++ task :: lineup.members) := (members_join task).append_left rest
      exact (inductionHypothesis.trans joined).trans List.perm_middle

theorem members_requeue : (lineup.requeue scheduler).members.Perm lineup.members := by
  unfold requeue
  split
  next => exact .refl _
  next tenure isHolder =>
    split
    next =>
      have inserted := insertSorted_perm scheduler.precedes tenure.task lineup.waiting
      simpa [members, isHolder] using inserted
    next => exact .refl _

theorem members_gather (tasks : List Task) :
    (lineup.gather scheduler tasks).members.Perm (tasks ++ lineup.members) :=
  members_requeue.trans (members_joinAll tasks)

theorem plain_dispatch :
    ((lineup.dispatch scheduler).members.map Task.plain).Perm (lineup.members.map Task.plain) := by
  unfold dispatch
  split
  next => exact .refl _
  next front rest waiting =>
    split
    next nobody => simp [members, waiting, nobody]
    next tenure isHolder =>
      split
      next =>
        have displaced := (insertSorted_perm scheduler.precedes tenure.task rest).map Task.plain
        have swapped := (displaced.cons front.plain).trans (.swap tenure.task.plain front.plain _)
        simpa [members, waiting, isHolder] using swapped
      next => exact .refl _

theorem plain_work {tenure : Tenure} (isHolder : lineup.holder = some tenure) :
    ((lineup.work scheduler).members.map Task.plain).Perm
      ((if tenure.task.remaining = 1 then [] else [tenure.task.worked.plain]) ++
        lineup.waiting.map Task.plain) := by
  have reordered := scheduler.plain_reorder lineup.waiting
  unfold work
  rw [isHolder]
  dsimp only
  split
  next => simpa [members] using reordered
  next =>
    have waits : ((if scheduler.usesUp (tenure.used + 1) then scheduler.reorder lineup.waiting
        else lineup.waiting).map Task.plain).Perm (lineup.waiting.map Task.plain) := by
      split
      · exact reordered
      · exact .refl _
    exact waits.cons _

theorem holder_work : (lineup.work scheduler).holder = lineup.holder.bind fun tenure =>
    if tenure.task.remaining = 1 then none else some tenure.worked := by
  unfold work
  split
  next nobody => simp [nobody]
  next tenure isHolder =>
    rw [isHolder, Option.bind_some]
    split <;> rfl

theorem holder_gather (endless : ∀ used, scheduler.usesUp used = false) (tasks : List Task) :
    (lineup.gather scheduler tasks).holder = lineup.holder := by
  rw [gather, requeue_of_goesOn fun tenure _ => endless tenure.used, holder_joinAll]

end Lineup

/-- The tasks of all jobs that have come and have work left, as a trace tells them. -/
structure Comprise (workload : List Spec) (record : Array TraceEntry) (time : Nat)
    (come : Job → Prop) (tasks : List Task) : Prop where
  nodup : (tasks.map (·.id)).Nodup
  mem_iff : ∀ task, task ∈ tasks ↔ ∃ job ∈ Job.ofWorkload workload,
    come job ∧ 0 < job.leftBefore record time ∧ task = job.taskBefore record time

variable {workload : List Spec} {record : Array TraceEntry} {time : Nat} {come : Job → Prop}
  {tasks others : List Task}

namespace Comprise

theorem of_perm (comprise : Comprise workload record time come tasks)
    (same : others.Perm tasks) : Comprise workload record time come others where
  nodup := (same.map (·.id)).nodup_iff.mpr comprise.nodup
  mem_iff task := same.mem_iff.trans (comprise.mem_iff task)

theorem exists_job (comprise : Comprise workload record time come (tasks.map Task.plain))
    {task : Task} (member : task ∈ tasks) :
    ∃ job ∈ Job.ofWorkload workload, come job ∧ 0 < job.leftBefore record time ∧
      task.plain = job.taskBefore record time :=
  (comprise.mem_iff task.plain).mp (List.mem_map_of_mem member)

theorem exists_task (comprise : Comprise workload record time come (tasks.map Task.plain))
    {job : Job} (submitted : job ∈ Job.ofWorkload workload) (comes : come job)
    (unserved : 0 < job.leftBefore record time) :
    ∃ task ∈ tasks, task.plain = job.taskBefore record time :=
  List.mem_map.mp ((comprise.mem_iff _).mpr ⟨job, submitted, comes, unserved, rfl⟩)

theorem join (serving : Serving workload record) (valid : validate workload = .ok ())
    (comprise : Comprise workload record time (·.arrival < time) tasks) :
    Comprise workload record time (·.arrival ≤ time) ((tasksAt workload time).map Task.plain ++ tasks)
    where
  nodup := by
    have ids : (((tasksAt workload time).map Task.plain).map (·.id)).Nodup := by
      have submitted : ((Job.ofWorkload workload).map (·.id)).Nodup := by
        rw [Job.map_id_ofWorkload]
        exact List.nodup_range'
      have arriving : ((Job.ofWorkload workload).filter (·.arrival = time)).Sublist
          (Job.ofWorkload workload) := List.filter_sublist
      rw [tasksAt, List.map_map, List.map_map]
      exact submitted.sublist (arriving.map (·.id))
    rw [List.map_append]
    refine List.Nodup.append ids comprise.nodup (List.disjoint_left.mpr fun id comes was => ?_)
    obtain ⟨newcomer, isNewcomer, named⟩ := List.mem_map.mp comes
    obtain ⟨task, isTask, rfl⟩ := List.mem_map.mp isNewcomer
    obtain ⟨job, submitted, arrives, rfl⟩ := mem_tasksAt.mp isTask
    obtain ⟨earlier, isEarlier, sameId⟩ := List.mem_map.mp was
    obtain ⟨other, otherSubmitted, before, _, rfl⟩ := (comprise.mem_iff _).mp isEarlier
    cases Job.eq_of_id submitted otherSubmitted (named.trans sameId.symm)
    omega
  mem_iff := by
    intro task
    rw [List.mem_append, comprise.mem_iff, List.mem_map]
    have positive {job : Job} (submitted : job ∈ Job.ofWorkload workload)
        (arrives : job.arrival = time) :
        job.leftBefore record time = job.service ∧ 0 < job.service := by
      refine ⟨serving.leftBefore_of_le_arrival submitted arrives.ge, ?_⟩
      obtain ⟨index, spec, listed, rfl⟩ := Job.mem_ofWorkload.mp submitted
      exact UInt64.lt_iff_toNat_lt.mp
        ((Simulation.validate_eq_ok_iff.mp valid).2 spec (List.mem_of_getElem? listed))
    have asTold {job : Job} (submitted : job ∈ Job.ofWorkload workload)
        (arrives : job.arrival = time) : job.task.plain = job.taskBefore record time := by
      have left := (positive submitted arrives).1
      obtain ⟨index, spec, listed, rfl⟩ := Job.mem_ofWorkload.mp submitted
      rw [Job.taskBefore, left]
      rfl
    constructor
    · rintro (⟨newcomer, isNewcomer, rfl⟩ | ⟨job, submitted, before, unserved, rfl⟩)
      · obtain ⟨job, submitted, arrives, rfl⟩ := mem_tasksAt.mp isNewcomer
        obtain ⟨left, works⟩ := positive submitted arrives
        exact ⟨job, submitted, arrives.le, left ▸ works, asTold submitted arrives⟩
      · exact ⟨job, submitted, before.le, unserved, rfl⟩
    · rintro ⟨job, submitted, arrived, unserved, rfl⟩
      rcases Nat.eq_or_lt_of_le arrived with arrives | before
      · exact .inl ⟨job.task, mem_tasksAt.mpr ⟨job, submitted, arrives, rfl⟩,
          asTold submitted arrives⟩
      · exact .inr ⟨job, submitted, before, unserved, rfl⟩

theorem gather (serving : Serving workload record) (valid : validate workload = .ok ())
    (comprise : Comprise workload record time (·.arrival < time) (lineup.members.map Task.plain)) :
    Comprise workload record time (·.arrival ≤ time)
      ((lineup.gather scheduler (tasksAt workload time)).members.map Task.plain) := by
  refine (comprise.join serving valid).of_perm ?_
  rw [← List.map_append]
  exact (Lineup.members_gather (tasksAt workload time)).map Task.plain

theorem dispatch (comprise : Comprise workload record time come (lineup.members.map Task.plain)) :
    Comprise workload record time come ((lineup.dispatch scheduler).members.map Task.plain) :=
  comprise.of_perm Lineup.plain_dispatch

theorem taskBefore_succ (serving : Serving workload record) {job : Job}
    (submitted : job ∈ Job.ofWorkload workload) (time : Nat) :
    job.taskBefore record (time + 1) =
      if occupantAt record time = some job.id then (job.taskBefore record time).worked
      else job.taskBefore record time := by
  have left := serving.leftBefore_succ submitted time
  split at left
  next holds => simp [Job.taskBefore, Task.worked, holds, left]
  next elsewhere => simp [Job.taskBefore, elsewhere, left]

theorem work (serving : Serving workload record)
    (comprise : Comprise workload record time (·.arrival ≤ time) (lineup.members.map Task.plain))
    (holds : occupantAt record time = lineup.occupant) :
    Comprise workload record (time + 1) (·.arrival < time + 1)
      ((lineup.work scheduler).members.map Task.plain) := by
  cases isHolder : lineup.holder with
  | none =>
      have nobody : occupantAt record time = none := by rw [holds, Lineup.occupant, isHolder]; rfl
      rw [Lineup.work, isHolder]
      refine ⟨comprise.nodup, fun task => (comprise.mem_iff task).trans ?_⟩
      refine exists_congr fun job => and_congr_right fun submitted => ?_
      have same := taskBefore_succ serving submitted time
      have left := serving.leftBefore_succ submitted time
      rw [nobody, if_neg (by simp)] at same left
      rw [same, left, Nat.add_zero, Nat.lt_succ_iff]
  | some tenure =>
      have split : lineup.members.map Task.plain =
          tenure.task.plain :: lineup.waiting.map Task.plain := by simp [Lineup.members, isHolder]
      rw [split] at comprise
      refine of_perm ?_ (Lineup.plain_work isHolder)
      have occupied : occupantAt record time = some tenure.task.id := by
        rw [holds, Lineup.occupant, isHolder]
        rfl
      obtain ⟨holder, isSubmitted, arrived, unserved, isTask⟩ :=
        (comprise.mem_iff _).mp List.mem_cons_self
      have named : tenure.task.id = holder.id := congrArg Task.id isTask
      have remains : tenure.task.remaining = holder.leftBefore record time :=
        congrArg Task.remaining isTask
      have others (job : Job) (submitted : job ∈ Job.ofWorkload workload) (different : job ≠ holder) :
          job.taskBefore record (time + 1) = job.taskBefore record time ∧
            job.leftBefore record (time + 1) = job.leftBefore record time := by
        have elsewhere : occupantAt record time ≠ some job.id := by
          rw [occupied, named]
          exact fun same => different
            (Job.eq_of_id submitted isSubmitted (Option.some.inj same).symm)
        have told := taskBefore_succ serving submitted time
        rw [if_neg elsewhere] at told
        exact ⟨told, congrArg Task.remaining told⟩
      have told := taskBefore_succ serving isSubmitted time
      rw [occupied, named, if_pos rfl, ← isTask] at told
      have left : holder.leftBefore record (time + 1) = tenure.task.remaining - 1 :=
        congrArg Task.remaining told
      obtain ⟨alone, rest⟩ := List.nodup_cons.mp comprise.nodup
      have waits (task : Task) : task ∈ lineup.waiting.map Task.plain ↔
          ∃ job ∈ Job.ofWorkload workload, job ≠ holder ∧ job.arrival ≤ time ∧
            0 < job.leftBefore record time ∧ task = job.taskBefore record time := by
        constructor
        · intro member
          obtain ⟨job, submitted, come, works, rfl⟩ :=
            (comprise.mem_iff task).mp (List.mem_cons_of_mem _ member)
          refine ⟨job, submitted, ?_, come, works, rfl⟩
          rintro rfl
          exact alone (isTask ▸ List.mem_map_of_mem member)
        · rintro ⟨job, submitted, different, come, works, rfl⟩
          have member := (comprise.mem_iff _).mpr ⟨job, submitted, come, works, rfl⟩
          refine (List.mem_cons.mp member).resolve_left fun same => different ?_
          exact Job.eq_of_id submitted isSubmitted ((congrArg Task.id same).trans named)
      refine ⟨?_, fun task => ?_⟩
      · split
        · exact rest
        · exact List.nodup_cons.mpr ⟨alone, rest⟩
      · rw [List.mem_append, waits]
        constructor
        · rintro (isHolder | ⟨job, submitted, different, come, works, rfl⟩)
          · split at isHolder
            next => cases isHolder
            next goesOn =>
              cases List.mem_singleton.mp isHolder
              exact ⟨holder, isSubmitted, Nat.lt_succ_of_le arrived, by omega, told.symm⟩
          · obtain ⟨sameTask, sameLeft⟩ := others job submitted different
            exact ⟨job, submitted, Nat.lt_succ_of_le come, sameLeft ▸ works, sameTask.symm⟩
        · rintro ⟨job, submitted, come, works, rfl⟩
          by_cases isHolder : job = holder
          · subst isHolder
            rw [if_neg (by omega), told]
            exact .inl (List.mem_singleton.mpr rfl)
          · obtain ⟨sameTask, sameLeft⟩ := others job submitted isHolder
            exact .inr ⟨job, submitted, isHolder, Nat.le_of_lt_succ come, sameLeft ▸ works, sameTask⟩

end Comprise

section Runs

variable {config : Config} {policy : Policy} {schedule : Schedule}

theorem valid_of_simulate (ran : simulate workload config policy = .ok schedule) :
    validate workload = .ok () := by
  cases valid : validate workload with
  | error refusal => simp [simulate_of_invalid valid] at ran
  | ok => rfl

variable (decides : Scheduler.ofPolicy policy config = .ok scheduler)
  (ran : simulate workload config policy = .ok schedule)

include decides ran

theorem comprise_before (time : Nat) :
    Comprise workload schedule.trace time (·.arrival < time)
      ((Lineup.before scheduler (tasksAt workload) time).members.map Task.plain) := by
  have serving := serving_of_simulate ran
  have valid := valid_of_simulate ran
  induction time with
  | zero => exact ⟨.nil, by simp [Lineup.before, Lineup.members]⟩
  | succ time inductionHypothesis =>
      exact (inductionHypothesis.gather serving valid).dispatch.work serving
        (occupantAt_of_simulate decides ran time)

/-- Those among whom a tick is decided are the jobs that are live in it. -/
theorem comprise_gather (time : Nat) :
    Comprise workload schedule.trace time (·.arrival ≤ time)
      (((Lineup.before scheduler (tasksAt workload) time).gather scheduler
        (tasksAt workload time)).members.map Task.plain) :=
  (comprise_before decides ran time).gather (serving_of_simulate ran) (valid_of_simulate ran)

theorem exists_live {time : Nat} {task : Task} (member : task ∈ ((Lineup.before scheduler
      (tasksAt workload) time).gather scheduler (tasksAt workload time)).members) :
    ∃ job ∈ schedule.jobs, job.Live schedule.trace time ∧
      task.plain = job.taskBefore schedule.trace time := by
  obtain ⟨job, submitted, come, unserved, isTask⟩ :=
    (comprise_gather decides ran time).exists_job member
  exact ⟨_, (mem_jobs_of_simulate ran).mpr ⟨job, submitted, rfl⟩, ⟨come, unserved⟩, isTask⟩

theorem exists_contender {time : Nat} {job : Job} (reported : job ∈ schedule.jobs)
    (live : job.Live schedule.trace time) :
    ∃ task ∈ ((Lineup.before scheduler (tasksAt workload) time).gather scheduler
      (tasksAt workload time)).members, task.plain = job.taskBefore schedule.trace time := by
  obtain ⟨submitted, isSubmitted, rfl⟩ := (mem_jobs_of_simulate ran).mp reported
  obtain ⟨task, member, isTask⟩ :=
    (comprise_gather decides ran time).exists_task isSubmitted live.1 live.2
  exact ⟨task, member, isTask⟩

/-- Where slices do not end, those are in possession of the CPU who had it in the last tick and
are still live. -/
theorem occupant_gather_iff (endless : ∀ used, scheduler.usesUp used = false) {job : Job}
    (submitted : job ∈ Job.ofWorkload workload) (live : job.Live schedule.trace (time + 1)) :
    ((Lineup.before scheduler (tasksAt workload) (time + 1)).gather scheduler
        (tasksAt workload (time + 1))).occupant = some job.id ↔
      occupantAt schedule.trace time = some job.id := by
  have holds := occupantAt_of_simulate decides ran time
  have comprise : Comprise workload schedule.trace time (·.arrival ≤ time)
      ((Lineup.during scheduler (tasksAt workload) time).members.map Task.plain) :=
    (comprise_gather decides ran time).dispatch
  rw [Lineup.occupant, Lineup.holder_gather endless, Lineup.before_succ, Lineup.holder_work, holds,
    Lineup.occupant]
  cases isHolder : (Lineup.during scheduler (tasksAt workload) time).holder with
  | none => simp
  | some tenure =>
      by_cases last : tenure.task.remaining = 1
      · have different : tenure.task.id ≠ job.id := fun same => by
          obtain ⟨holder, isSubmitted, _, _, isTask⟩ :=
            comprise.exists_job (Lineup.mem_members_of_holder isHolder)
          have named : tenure.task.id = holder.id := congrArg Task.id isTask
          have remains : tenure.task.remaining = holder.leftBefore schedule.trace time :=
            congrArg Task.remaining isTask
          cases Job.eq_of_id isSubmitted submitted (named.symm.trans same)
          have left := (serving_of_simulate ran).leftBefore_succ submitted time
          rw [holds, Lineup.occupant, isHolder, Option.map_some, same, if_pos rfl] at left
          have unserved := live.2
          omega
        simp [last, different]
      · simp [last, Tenure.worked, Task.worked]

end Runs

end CpuScheduling
