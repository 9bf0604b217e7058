import CpuScheduling.Proofs.Lineup.Live

/-!
How preemptive priority decides a tick.  The CPU goes to the live job that matters most, and
among those that matter as much arrival and id decide.  Whoever has had the CPU has to stand
this comparison anew in every tick.
-/

namespace CpuScheduling

namespace Lineup

open Scheduler (preemptivePriority)

variable {lineup : Lineup}

theorem preemptivePriority_chooses (ordered : lineup.Ordered preemptivePriority)
    (somebody : lineup.members ≠ []) :
    ∃ chosen ∈ lineup.members, (lineup.dispatch preemptivePriority).occupant = some chosen.id ∧
      ∀ task ∈ lineup.members, preemptivePriority.precedes chosen task := by
  have itself (task : Task) : preemptivePriority.precedes task task :=
    (Scheduler.precedes_total rfl task task).elim id id
  cases waiting : lineup.waiting with
  | nil =>
      cases isHolder : lineup.holder with
      | none => simp [members, isHolder, waiting] at somebody
      | some tenure =>
          refine ⟨tenure.task, mem_members_of_holder isHolder, ?_, ?_⟩
          · simp [dispatch, waiting, isHolder, occupant]
          · simpa [members, isHolder, waiting] using itself tenure.task
  | cons front rest =>
      have sorted := ordered rfl
      rw [waiting] at sorted
      have first : ∀ task ∈ lineup.waiting, preemptivePriority.precedes front task := by
        rw [waiting, List.forall_mem_cons]
        exact ⟨itself front, (List.pairwise_cons.mp sorted).1⟩
      have isFront : front ∈ lineup.waiting := by simp [waiting]
      cases isHolder : lineup.holder with
      | none =>
          refine ⟨front, mem_members_of_waiting isFront, ?_, ?_⟩
          · simp [dispatch, waiting, isHolder, occupant, Task.picked]
          · simpa [members, isHolder] using first
      | some tenure =>
          cases wins : preemptivePriority.overtakes front tenure.task with
          | true =>
              refine ⟨front, mem_members_of_waiting isFront, ?_, ?_⟩
              · simp [dispatch, waiting, isHolder, occupant, wins]
              · simpa [members, isHolder] using ⟨Scheduler.precedes_of_overtakes wins, first⟩
          | false =>
              have before : preemptivePriority.precedes tenure.task front := by
                simpa [Scheduler.overtakes] using wins
              have ahead (task : Task) (waits : task ∈ lineup.waiting) :
                  preemptivePriority.precedes tenure.task task :=
                Scheduler.precedes_trans rfl tenure.task front task before (first task waits)
              refine ⟨tenure.task, mem_members_of_holder isHolder, ?_, ?_⟩
              · simp [dispatch, waiting, isHolder, occupant, wins]
              · simpa [members, isHolder] using ⟨itself tenure.task, ahead⟩

end Lineup

theorem Job.outranks_of_precedes {record : Array TraceEntry} {time : Nat} {first second : Job}
    {task other : Task} (isFirst : task.plain = first.taskBefore record time)
    (isSecond : other.plain = second.taskBefore record time)
    (before : Scheduler.preemptivePriority.precedes task other) (different : first.id ≠ second.id) :
    first.Outranks Job.priority second := by
  have ids : task.id = first.id ∧ other.id = second.id :=
    ⟨congrArg Task.id isFirst, congrArg Task.id isSecond⟩
  have arrivals : task.arrival = first.arrival ∧ other.arrival = second.arrival :=
    ⟨congrArg Task.arrival isFirst, congrArg Task.arrival isSecond⟩
  have priorities : task.priority = first.priority ∧ other.priority = second.priority :=
    ⟨congrArg Task.priority isFirst, congrArg Task.priority isSecond⟩
  have order := (Scheduler.precedes_iff rfl).mp before
  simp only [Scheduler.criterion] at order
  unfold Job.Outranks
  omega

variable {workload : List Spec} {config : Config} {schedule : Schedule} {time : Nat}

/-- In a run of preemptive priority, a tick in which some job is live belongs to the live job that
outranks all others, whoever has had the CPU before. -/
theorem simulate_preemptive_decides
    (ran : simulate workload config .preemptivePriority = .ok schedule)
    (somebody : ∃ job ∈ schedule.jobs, job.Live schedule.trace time) :
    ∃ chosen ∈ schedule.jobs, chosen.Live schedule.trace time ∧
      occupantAt schedule.trace time = some chosen.id ∧
      ∀ other ∈ schedule.jobs, other.Live schedule.trace time → other.id ≠ chosen.id →
        chosen.Outranks Job.priority other := by
  have decides : Scheduler.ofPolicy .preemptivePriority config = .ok .preemptivePriority := rfl
  have ordered := (Lineup.Ordered.before .preemptivePriority (tasksAt workload) time).gather
    (tasksAt workload time)
  obtain ⟨job, reported, live⟩ := somebody
  obtain ⟨someTask, isMember, _⟩ := exists_contender decides ran reported live
  obtain ⟨first, isFirst, occupant, precedes⟩ :=
    Lineup.preemptivePriority_chooses ordered (List.ne_nil_of_mem isMember)
  obtain ⟨chosen, isReported, isLive, isTask⟩ := exists_live decides ran isFirst
  refine ⟨chosen, isReported, isLive, ?_, fun other otherReported otherLive different => ?_⟩
  · rw [occupantAt_of_simulate decides ran, Lineup.during, Lineup.assign, occupant]
    exact congrArg (some ∘ Task.id) isTask
  · obtain ⟨task, isRival, isOther⟩ := exists_contender decides ran otherReported otherLive
    exact Job.outranks_of_precedes isTask isOther (precedes task isRival) (Ne.symm different)

/-- Two jobs that arrive together matter more than the one on the CPU, and as much as each other. -/
theorem simulate_preemptive_decides_rivals :
    ∃ schedule,
      simulate [⟨0, 3, 1⟩, ⟨1, 2, 2⟩, ⟨1, 1, 2⟩] {} .preemptivePriority = .ok schedule ∧
      schedule.timeline = [some 1, some 2, some 2, some 3, some 1, some 1] ∧
      ∃ chosen ∈ schedule.jobs, chosen.Live schedule.trace 1 ∧
        occupantAt schedule.trace 1 = some chosen.id ∧
        ∀ other ∈ schedule.jobs, other.Live schedule.trace 1 → other.id ≠ chosen.id →
          chosen.Outranks Job.priority other := by
  have runs : (simulate [⟨0, 3, 1⟩, ⟨1, 2, 2⟩, ⟨1, 1, 2⟩] {} .preemptivePriority).toOption.map
      (fun schedule =>
        (schedule.timeline, decide (∃ job ∈ schedule.jobs, job.Live schedule.trace 1))) =
      some ([some 1, some 2, some 2, some 3, some 1, some 1], true) := by
    decide +kernel
  obtain ⟨schedule, isSchedule, told⟩ := Option.map_eq_some_iff.mp runs
  have ran := toOption_eq_some_iff.mp isSchedule
  simp only [Prod.mk.injEq, decide_eq_true_eq] at told
  obtain ⟨timeline, somebody⟩ := told
  exact ⟨schedule, ran, timeline, simulate_preemptive_decides ran somebody⟩

end CpuScheduling
