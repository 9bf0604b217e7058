import CpuScheduling.Proofs.Lineup.Live

/-!
How shortest remaining time first decides a tick.  Whoever has had the CPU keeps it as long
as no job that is live has less left; otherwise the live job with the least left gets it, and
among those that have the same left arrival and id decide.  Line-ups tell apart what the keys
of ranks cannot, so this holds of services of every length.
-/

namespace CpuScheduling

/-- At this time the first job has less left than the second one, or it has as much left and
comes first by arrival and id. -/
def Job.ShorterAt (record : Array TraceEntry) (time : Nat) (first second : Job) : Prop :=
  first.leftBefore record time < second.leftBefore record time ∨
    first.leftBefore record time = second.leftBefore record time ∧
      (first.arrival < second.arrival ∨ first.arrival = second.arrival ∧ first.id < second.id)

/-- The job has had the CPU in the last tick, and no job that is live has less left. -/
structure Schedule.Keeps (schedule : Schedule) (time : Nat) (job : Job) : Prop where
  had : ∃ last, last + 1 = time ∧ occupantAt schedule.trace last = some job.id
  live : job.Live schedule.trace time
  least : ∀ other ∈ schedule.jobs, other.Live schedule.trace time →
    job.leftBefore schedule.trace time ≤ other.leftBefore schedule.trace time

instance (schedule : Schedule) (time : Nat) (job : Job) : Decidable (schedule.Keeps time job) :=
  decidable_of_iff
    ((0 < time ∧ occupantAt schedule.trace (time - 1) = some job.id) ∧
      job.Live schedule.trace time ∧ ∀ other ∈ schedule.jobs, other.Live schedule.trace time →
        job.leftBefore schedule.trace time ≤ other.leftBefore schedule.trace time)
    ⟨fun ⟨⟨later, had⟩, live, least⟩ => ⟨⟨time - 1, Nat.sub_add_cancel later, had⟩, live, least⟩,
      fun ⟨⟨_, isTime, had⟩, live, least⟩ => by subst isTime; exact ⟨⟨by simp, had⟩, live, least⟩⟩

namespace Lineup

open Scheduler (srtf)

variable {lineup : Lineup}

theorem srtf_keeps {tenure : Tenure} (isHolder : lineup.holder = some tenure)
    (least : ∀ task ∈ lineup.waiting, tenure.task.remaining ≤ task.remaining) :
    (lineup.dispatch srtf).occupant = some tenure.task.id := by
  have stays : lineup.dispatch srtf = lineup := dispatch_of_holder isHolder fun front rest isFront => by
    have atLeast := least front (by simp [isFront])
    simpa [Scheduler.overtakes] using atLeast
  rw [stays, occupant, isHolder]
  rfl

theorem srtf_chooses (ordered : lineup.Ordered srtf) (somebody : lineup.members ≠ [])
    (contested : ∀ tenure, lineup.holder = some tenure →
      ∃ task ∈ lineup.waiting, task.remaining < tenure.task.remaining) :
    ∃ chosen ∈ lineup.members, (lineup.dispatch srtf).occupant = some chosen.id ∧
      ∀ task ∈ lineup.members, srtf.precedes chosen task := by
  cases waiting : lineup.waiting with
  | nil =>
      cases isHolder : lineup.holder with
      | none => simp [members, isHolder, waiting] at somebody
      | some tenure => simpa [waiting] using contested tenure isHolder
  | cons front rest =>
      have sorted := ordered rfl
      rw [waiting] at sorted
      have first : ∀ task ∈ lineup.waiting, srtf.precedes front task := by
        rw [waiting, List.forall_mem_cons]
        exact ⟨(Scheduler.precedes_total rfl front front).elim id id, (List.pairwise_cons.mp sorted).1⟩
      have isFront : front ∈ lineup.members := by simp [members, waiting]
      cases isHolder : lineup.holder with
      | none =>
          refine ⟨front, isFront, by simp [dispatch, waiting, isHolder, occupant], ?_⟩
          simpa [members, isHolder] using first
      | some tenure =>
          obtain ⟨shorter, waits, less⟩ := contested tenure isHolder
          have order := (Scheduler.precedes_iff rfl).mp (first shorter waits)
          simp only [Scheduler.criterion] at order
          have wins : srtf.overtakes front tenure.task = true := by
            simp only [Scheduler.overtakes, decide_eq_true_eq]
            omega
          refine ⟨front, isFront, by simp [dispatch, waiting, isHolder, occupant, wins], ?_⟩
          simpa [members, isHolder] using ⟨Scheduler.precedes_of_overtakes wins, first⟩

end Lineup

variable {workload : List Spec} {config : Config} {schedule : Schedule}

theorem Job.shorterAt_of_precedes {record : Array TraceEntry} {time : Nat} {first second : Job}
    {task other : Task} (isFirst : task.plain = first.taskBefore record time)
    (isSecond : other.plain = second.taskBefore record time)
    (before : Scheduler.srtf.precedes task other) (different : first.id ≠ second.id) :
    first.ShorterAt record time second := by
  have ids : task.id = first.id ∧ other.id = second.id :=
    ⟨congrArg Task.id isFirst, congrArg Task.id isSecond⟩
  have arrivals : task.arrival = first.arrival ∧ other.arrival = second.arrival :=
    ⟨congrArg Task.arrival isFirst, congrArg Task.arrival isSecond⟩
  have left : task.remaining = first.leftBefore record time ∧
      other.remaining = second.leftBefore record time :=
    ⟨congrArg Task.remaining isFirst, congrArg Task.remaining isSecond⟩
  have order := (Scheduler.precedes_iff rfl).mp before
  simp only [Scheduler.criterion] at order
  unfold Job.ShorterAt
  omega

section Decisions

variable {time : Nat} (ran : simulate workload config .srtf = .ok schedule)

include ran

theorem occupantAt_of_keeps {job : Job} (reported : job ∈ schedule.jobs)
    (keeps : schedule.Keeps time job) : occupantAt schedule.trace time = some job.id := by
  have decides : Scheduler.ofPolicy .srtf config = .ok .srtf := rfl
  obtain ⟨⟨last, rfl, had⟩, live, least⟩ := keeps
  obtain ⟨submitted, isSubmitted, rfl⟩ := (mem_jobs_of_simulate ran).mp reported
  have inPossession := (occupant_gather_iff decides ran (fun _ => rfl) isSubmitted live).mpr had
  obtain ⟨tenure, isHolder, named⟩ := Option.map_eq_some_iff.mp inPossession
  obtain ⟨holder, holderSubmitted, _, _, isTask⟩ :=
    (comprise_gather decides ran (last + 1)).exists_job (Lineup.mem_members_of_holder isHolder)
  cases Job.eq_of_id holderSubmitted isSubmitted ((congrArg Task.id isTask).symm.trans named)
  have stays := Lineup.srtf_keeps isHolder fun task waits => by
    obtain ⟨other, otherReported, otherLive, isOther⟩ :=
      exists_live decides ran (Lineup.mem_members_of_waiting waits)
    calc
      tenure.task.remaining = submitted.leftBefore schedule.trace (last + 1) :=
        congrArg Task.remaining isTask
      _ ≤ other.leftBefore schedule.trace (last + 1) := least other otherReported otherLive
      _ = task.remaining := (congrArg Task.remaining isOther).symm
  rw [occupantAt_of_simulate decides ran, Lineup.during, Lineup.assign, stays, named]
  rfl

theorem exists_keeps_of_holder {tenure : Tenure}
    (isHolder : ((Lineup.before .srtf (tasksAt workload) time).gather .srtf
      (tasksAt workload time)).holder = some tenure)
    (least : ∀ task ∈ ((Lineup.before .srtf (tasksAt workload) time).gather .srtf
      (tasksAt workload time)).waiting, tenure.task.remaining ≤ task.remaining) :
    ∃ job ∈ schedule.jobs, schedule.Keeps time job := by
  have decides : Scheduler.ofPolicy .srtf config = .ok .srtf := rfl
  have endless (used : Nat) : Scheduler.srtf.usesUp used = false := rfl
  obtain ⟨job, reported, live, isTask⟩ :=
    exists_live decides ran (Lineup.mem_members_of_holder isHolder)
  refine ⟨job, reported, ?_, live, fun other otherReported otherLive => ?_⟩
  · cases time with
    | zero => simp [Lineup.before, Lineup.holder_gather endless] at isHolder
    | succ last =>
        obtain ⟨submitted, isSubmitted, rfl⟩ := (mem_jobs_of_simulate ran).mp reported
        refine ⟨last, rfl, (occupant_gather_iff decides ran endless isSubmitted live).mp ?_⟩
        rw [Lineup.occupant, isHolder]
        exact congrArg (some ∘ Task.id) isTask
  · obtain ⟨task, isMember, isOther⟩ := exists_contender decides ran otherReported otherLive
    have atLeast : tenure.task.remaining ≤ task.remaining := by
      rw [Lineup.members, isHolder] at isMember
      rcases List.mem_append.mp isMember with holds | waits
      · cases List.mem_singleton.mp holds
        exact le_rfl
      · exact least task waits
    calc
      job.leftBefore schedule.trace time = tenure.task.remaining :=
        (congrArg Task.remaining isTask).symm
      _ ≤ task.remaining := atLeast
      _ = other.leftBefore schedule.trace time := congrArg Task.remaining isOther

theorem exists_shortest (nobodyKeeps : ∀ job ∈ schedule.jobs, ¬schedule.Keeps time job)
    (somebody : ∃ job ∈ schedule.jobs, job.Live schedule.trace time) :
    ∃ chosen ∈ schedule.jobs, chosen.Live schedule.trace time ∧
      occupantAt schedule.trace time = some chosen.id ∧
      ∀ other ∈ schedule.jobs, other.Live schedule.trace time → other.id ≠ chosen.id →
        chosen.ShorterAt schedule.trace time other := by
  have decides : Scheduler.ofPolicy .srtf config = .ok .srtf := rfl
  have ordered := (Lineup.Ordered.before .srtf (tasksAt workload) time).gather
    (tasksAt workload time)
  obtain ⟨job, reported, live⟩ := somebody
  obtain ⟨someTask, isMember, _⟩ := exists_contender decides ran reported live
  obtain ⟨first, isFirst, occupant, precedes⟩ :=
    Lineup.srtf_chooses ordered (List.ne_nil_of_mem isMember) fun tenure isHolder => by
      by_contra uncontested
      push Not at uncontested
      obtain ⟨holder, isReported, keeps⟩ := exists_keeps_of_holder ran isHolder uncontested
      exact nobodyKeeps holder isReported keeps
  obtain ⟨chosen, isReported, isLive, isTask⟩ := exists_live decides ran isFirst
  refine ⟨chosen, isReported, isLive, ?_, fun other otherReported otherLive different => ?_⟩
  · rw [occupantAt_of_simulate decides ran, Lineup.during, Lineup.assign, occupant]
    exact congrArg (some ∘ Task.id) isTask
  · obtain ⟨task, isRival, isOther⟩ := exists_contender decides ran otherReported otherLive
    exact Job.shorterAt_of_precedes isTask isOther (precedes task isRival) (Ne.symm different)

end Decisions

/-- In a run of shortest remaining time first, a job that keeps the CPU by the rule has it in the
next tick; where none does and some job is live, the shortest of them has it. -/
theorem simulate_srtf_decides (ran : simulate workload config .srtf = .ok schedule) (time : Nat) :
    (∀ job ∈ schedule.jobs, schedule.Keeps time job →
        occupantAt schedule.trace time = some job.id) ∧
      ((∀ job ∈ schedule.jobs, ¬schedule.Keeps time job) →
        (∃ job ∈ schedule.jobs, job.Live schedule.trace time) →
        ∃ chosen ∈ schedule.jobs, chosen.Live schedule.trace time ∧
          occupantAt schedule.trace time = some chosen.id ∧
          ∀ other ∈ schedule.jobs, other.Live schedule.trace time → other.id ≠ chosen.id →
            chosen.ShorterAt schedule.trace time other) :=
  ⟨fun _ => occupantAt_of_keeps ran, exists_shortest ran⟩

/-- A job with as much left as the one on the CPU does not displace it, and the one that
is shorter follows it. -/
theorem simulate_srtf_decides_tie :
    ∃ schedule, simulate [⟨0, 4, 0⟩, ⟨1, 3, 0⟩, ⟨2, 2, 0⟩] {} .srtf = .ok schedule ∧
      schedule.timeline =
        [some 1, some 1, some 1, some 1, some 3, some 3, some 2, some 2, some 2] ∧
      occupantAt schedule.trace 2 = some 1 ∧
      ∃ chosen ∈ schedule.jobs, chosen.Live schedule.trace 4 ∧
        occupantAt schedule.trace 4 = some chosen.id ∧
        ∀ other ∈ schedule.jobs, other.Live schedule.trace 4 → other.id ≠ chosen.id →
          chosen.ShorterAt schedule.trace 4 other := by
  have runs : (simulate [⟨0, 4, 0⟩, ⟨1, 3, 0⟩, ⟨2, 2, 0⟩] {} .srtf).toOption.map (fun schedule =>
      (schedule.timeline, decide (∃ job ∈ schedule.jobs, job.id = 1 ∧ schedule.Keeps 2 job),
        decide ((∀ job ∈ schedule.jobs, ¬schedule.Keeps 4 job) ∧
          ∃ job ∈ schedule.jobs, job.Live schedule.trace 4))) =
      some ([some 1, some 1, some 1, some 1, some 3, some 3, some 2, some 2, some 2], true, true) := by
    decide +kernel
  obtain ⟨schedule, isSchedule, told⟩ := Option.map_eq_some_iff.mp runs
  have ran := toOption_eq_some_iff.mp isSchedule
  simp only [Prod.mk.injEq, decide_eq_true_eq] at told
  obtain ⟨timeline, ⟨job, reported, isFirst, keeps⟩, nobodyKeeps, somebody⟩ := told
  refine ⟨schedule, ran, timeline, ?_, (simulate_srtf_decides ran 4).2 nobodyKeeps somebody⟩
  rw [← isFirst]
  exact (simulate_srtf_decides ran 2).1 job reported keeps

end CpuScheduling
