import CpuScheduling.Proofs.Lineup.Run
import CpuScheduling.Proofs.Simulation.FinalBooks

/-!
No policy anticipates.  What arrives after a time, and whether it arrives at all, shows
neither in who has the CPU until then nor in the books of the jobs that complete by then.
-/

namespace CpuScheduling

/-- A workload in which entries that arrive after a time have been replaced by others that
do, and to which such entries have been appended. -/
inductive ChangedAfter (time : Nat) : List Spec → List Spec → Prop where
  | append {late : List Spec} (after : ∀ spec ∈ late, time < spec.arrival.toNat) :
      ChangedAfter time [] late
  | keep (spec : Spec) {rest others : List Spec} (changed : ChangedAfter time rest others) :
      ChangedAfter time (spec :: rest) (spec :: others)
  | replace {old new : Spec} {rest others : List Spec} (was : time < old.arrival.toNat)
      (is : time < new.arrival.toNat) (changed : ChangedAfter time rest others) :
      ChangedAfter time (old :: rest) (new :: others)

namespace ChangedAfter

variable {time : Nat} {first second : List Spec}

theorem getElem?_iff (changed : ChangedAfter time first second) {index : Nat} {spec : Spec}
    (inTime : spec.arrival.toNat ≤ time) :
    first[index]? = some spec ↔ second[index]? = some spec := by
  induction changed generalizing index with
  | append after =>
      simp only [List.getElem?_nil, reduceCtorEq, false_iff]
      intro appended
      exact absurd inTime (Nat.not_le_of_lt (after spec (List.mem_of_getElem? appended)))
  | keep other _ inductionHypothesis =>
      cases index with
      | zero => rfl
      | succ index => simpa using inductionHypothesis
  | replace was is _ inductionHypothesis =>
      cases index with
      | zero =>
          simp only [List.getElem?_cons_zero, Option.some.injEq]
          constructor
          · rintro rfl
            omega
          · rintro rfl
            omega
      | succ index => simpa using inductionHypothesis

theorem filter_number (changed : ChangedAfter time first second) {tick : Nat} (inTime : tick ≤ time)
    (id : Nat) :
    (Job.number id first).filter (·.arrival = tick) =
      (Job.number id second).filter (·.arrival = tick) := by
  have late {id : Nat} {spec : Spec} (after : time < spec.arrival.toNat) :
      (Job.ofSpec id spec).arrival ≠ tick := by
    have later : time < (Job.ofSpec id spec).arrival := after
    omega
  induction changed generalizing id with
  | append after =>
      refine (List.filter_eq_nil_iff.mpr fun job member => ?_).symm
      obtain ⟨index, listed⟩ := List.mem_iff_getElem?.mp member
      rw [Job.getElem?_number, Option.map_eq_some_iff] at listed
      obtain ⟨spec, isLate, rfl⟩ := listed
      simpa using late (after spec (List.mem_of_getElem? isLate))
  | keep spec _ inductionHypothesis =>
      simp only [Job.number, List.filter_cons, inductionHypothesis]
  | replace was is _ inductionHypothesis =>
      simp only [Job.number, List.filter_cons, late was, late is, inductionHypothesis, decide_false,
        Bool.false_eq_true, ↓reduceIte]

theorem tasksAt_eq (changed : ChangedAfter time first second) {tick : Nat} (inTime : tick ≤ time) :
    tasksAt first tick = tasksAt second tick :=
  congrArg (List.map Job.task) (changed.filter_number inTime 1)

end ChangedAfter

namespace Lineup

variable {scheduler : Scheduler} {come other : Nat → List Task} {time : Nat}

/-- A line-up depends on nobody who comes later. -/
theorem before_congr (same : ∀ tick < time, come tick = other tick) :
    before scheduler come time = before scheduler other time := by
  induction time with
  | zero => rfl
  | succ time inductionHypothesis =>
      have earlier := inductionHypothesis fun tick past => same tick (Nat.lt_succ_of_lt past)
      rw [before_succ, before_succ, during, during, earlier, same time (Nat.lt_succ_self time)]

theorem during_congr (same : ∀ tick ≤ time, come tick = other tick) :
    during scheduler come time = during scheduler other time := by
  have earlier : before scheduler come time = before scheduler other time :=
    before_congr fun tick past => same tick (Nat.le_of_lt past)
  rw [during, during, earlier, same time (Nat.le_refl time)]

end Lineup

variable {first second : List Spec} {config : Config} {policy : Policy}
  {schedule other : Schedule} {time : Nat}

/-- A job that completes while two runs agree has the same books in both. -/
theorem completed_of_agreeing (ran : simulate first config policy = .ok schedule)
    (otherRan : simulate second config policy = .ok other)
    (kept : ∀ (index : Nat) (spec : Spec), spec.arrival.toNat ≤ time →
      first[index]? = some spec → second[index]? = some spec)
    (agree : ∀ tick ≤ time, occupantAt schedule.trace tick = occupantAt other.trace tick)
    {index completion : Nat} {job : Job} (listed : schedule.jobs[index]? = some job)
    (completes : job.completion = some completion) (early : completion ≤ time + 1) :
    first[index]? = second[index]? ∧ other.jobs[index]? = some job := by
  have ordered := (chronological_of_simulate ran).1
  have otherOrdered := (chronological_of_simulate otherRan).1
  obtain ⟨start, _, waiting, books, _⟩ :=
    (traced_of_simulate ran).2 job (List.mem_of_getElem? listed)
  cases completes.symm.trans books.completion_eq
  have closed := getElem?_jobs_of_simulate ran index
  rw [listed] at closed
  obtain ⟨spec, submitted, rfl⟩ := Option.map_eq_some_iff.mp closed.symm
  have started := ordered.le_last_heldTicks books.last start (List.mem_of_head? books.first)
  have arrived : spec.arrival.toNat ≤ start := books.arrival_le
  have positive := books.completion_pos
  have alsoSubmitted := kept index spec (by omega) submitted
  have otherListed := getElem?_jobs_of_simulate otherRan index
  rw [alsoSubmitted, Option.map_some] at otherListed
  obtain ⟨_, _, _, otherBooks, _⟩ :=
    (traced_of_simulate otherRan).2 _ (List.mem_of_getElem? otherListed)
  have sameHeld : heldTicks schedule.trace (index + 1) = heldTicks other.trace (index + 1) := by
    refine ordered.heldTicks_eq_of_subset otherOrdered (fun tick holds => ?_) ?_
    · have isHeld : tick ∈ heldTicks schedule.trace (index + 1) := ordered.mem_heldTicks.mpr holds
      have beforeEnd := ordered.le_last_heldTicks books.last tick isHeld
      rwa [← agree tick (by omega)]
    · exact Nat.le_of_eq (otherBooks.held.trans books.held.symm)
  exact ⟨submitted.trans alsoSubmitted.symm, sameHeld ▸ otherListed⟩

/-- What arrives after a time shows neither in the trace until then nor in the books of the
jobs that complete with the tick that begins then or before. -/
theorem simulate_not_anticipating (changed : ChangedAfter time first second)
    (ran : simulate first config policy = .ok schedule)
    (otherRan : simulate second config policy = .ok other) :
    (∀ tick ≤ time, occupantAt schedule.trace tick = occupantAt other.trace tick ∧
        (tick < schedule.trace.size → tick < other.trace.size →
          schedule.trace[tick]? = other.trace[tick]?)) ∧
      ∀ (index completion : Nat) (job : Job), job.completion = some completion →
        completion ≤ time + 1 →
        (schedule.jobs[index]? = some job →
          first[index]? = second[index]? ∧ other.jobs[index]? = some job) ∧
        (other.jobs[index]? = some job →
          first[index]? = second[index]? ∧ schedule.jobs[index]? = some job) := by
  obtain ⟨scheduler, decides⟩ := exists_scheduler_of_simulate ran
  have agree : ∀ tick ≤ time, occupantAt schedule.trace tick = occupantAt other.trace tick := by
    intro tick inTime
    have same : Lineup.during scheduler (tasksAt first) tick =
        Lineup.during scheduler (tasksAt second) tick :=
      Lineup.during_congr fun earlier past => changed.tasksAt_eq (Nat.le_trans past inTime)
    rw [occupantAt_of_simulate decides ran, occupantAt_of_simulate decides otherRan, same]
  constructor
  · intro tick inTime
    refine ⟨agree tick inTime, fun inTrace inOther => ?_⟩
    rw [(chronological_of_simulate ran).1.getElem?_eq inTrace,
      (chronological_of_simulate otherRan).1.getElem?_eq inOther, agree tick inTime]
  · intro index completion job completes early
    constructor
    · intro listed
      exact completed_of_agreeing ran otherRan
        (fun _ _ inTime => (changed.getElem?_iff inTime).mp) agree listed completes early
    · intro listed
      obtain ⟨sameSpec, sameBooks⟩ := completed_of_agreeing otherRan ran
        (fun _ _ inTime => (changed.getElem?_iff inTime).mpr)
        (fun tick inTime => (agree tick inTime).symm) listed completes early
      exact ⟨sameSpec.symm, sameBooks⟩

/-- The third job is replaced by one that arrives earlier, and a fourth one is appended that
overtakes all others.  Until they come, and for the first job, nothing changes. -/
theorem simulate_not_anticipating_rivals :
    ∃ schedule other,
      simulate [⟨0, 2, 0⟩, ⟨1, 2, 0⟩, ⟨5, 1, 0⟩] { maxTicks := 20 } .preemptivePriority =
        .ok schedule ∧
      simulate [⟨0, 2, 0⟩, ⟨1, 2, 0⟩, ⟨3, 1, 7⟩, ⟨2, 1, 9⟩] { maxTicks := 20 }
        .preemptivePriority = .ok other ∧
      schedule.timeline = [some 1, some 1, some 2, some 2, none, some 3] ∧
      other.timeline = [some 1, some 1, some 4, some 3, some 2, some 2] ∧
      (∀ tick ≤ 1, occupantAt schedule.trace tick = occupantAt other.trace tick) ∧
      ∀ job, schedule.jobs[0]? = some job → job.completion = some 2 → other.jobs[0]? = some job := by
  have runs : (simulate [⟨0, 2, 0⟩, ⟨1, 2, 0⟩, ⟨5, 1, 0⟩] { maxTicks := 20 }
      .preemptivePriority).toOption.map Schedule.timeline =
        some [some 1, some 1, some 2, some 2, none, some 3] := by
    decide +kernel
  have otherRuns : (simulate [⟨0, 2, 0⟩, ⟨1, 2, 0⟩, ⟨3, 1, 7⟩, ⟨2, 1, 9⟩] { maxTicks := 20 }
      .preemptivePriority).toOption.map Schedule.timeline =
        some [some 1, some 1, some 4, some 3, some 2, some 2] := by
    decide +kernel
  have changed : ChangedAfter 1 [⟨0, 2, 0⟩, ⟨1, 2, 0⟩, ⟨5, 1, 0⟩]
      [⟨0, 2, 0⟩, ⟨1, 2, 0⟩, ⟨3, 1, 7⟩, ⟨2, 1, 9⟩] :=
    .keep _ (.keep _ (.replace (by decide) (by decide) (.append (by decide))))
  obtain ⟨schedule, ran, timeline⟩ := exists_of_timeline runs
  obtain ⟨other, otherRan, otherTimeline⟩ := exists_of_timeline otherRuns
  obtain ⟨agree, books⟩ := simulate_not_anticipating changed ran otherRan
  refine ⟨schedule, other, ran, otherRan, timeline, otherTimeline, ?_, ?_⟩
  · intro tick inTime
    exact (agree tick inTime).1
  · intro job listed completes
    exact ((books 0 2 job completes (by decide)).1 listed).2

end CpuScheduling
