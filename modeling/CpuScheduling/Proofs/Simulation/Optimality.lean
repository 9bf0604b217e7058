import CpuScheduling.Proofs.Simulation.Accounts
import CpuScheduling.Proofs.Simulation.ShortestFirst
import Mathlib.Algebra.BigOperators.Group.Finset.Piecewise
import Mathlib.Algebra.Order.BigOperators.Group.Finset

/-!
Shortest remaining time first completes as many jobs by any time as any other policy.
For every set of jobs that the other policy has taken up there is a set of as many jobs
of which shortest first has no more left.
-/

namespace CpuScheduling

variable {workload : List Spec}

/-- What the trace of every completed run keeps to: only jobs that have arrived and have
work left are served, and the CPU rests only where there is none. -/
structure Serving (workload : List Spec) (record : Array TraceEntry) : Prop where
  chronological : Chronological record
  occupied : ∀ time id, occupantAt record time = some id → ∃ job ∈ Job.ofWorkload workload,
    job.id = id ∧ job.arrival ≤ time ∧ 0 < job.leftBefore record time
  rests : ∀ time, occupantAt record time = none → ∀ job ∈ Job.ofWorkload workload,
    job.arrival ≤ time → job.leftBefore record time = 0

def released (workload : List Spec) (time : Nat) : Finset Job :=
  (Job.ofWorkload workload).toFinset.filter (·.arrival ≤ time)

@[simp]
theorem mem_released {time : Nat} {job : Job} :
    job ∈ released workload time ↔ job ∈ Job.ofWorkload workload ∧ job.arrival ≤ time := by
  simp [released]

namespace Serving

variable {record : Array TraceEntry} {time : Nat} {job : Job} {chosen : Finset Job}
  (serving : Serving workload record)

include serving

theorem leftBefore_succ (submitted : job ∈ Job.ofWorkload workload) (time : Nat) :
    job.leftBefore record time =
      job.leftBefore record (time + 1) + if occupantAt record time = some job.id then 1 else 0 := by
  have worked := serving.chronological.workedBefore_succ job.id time
  unfold Job.leftBefore at *
  split at worked
  next holds =>
    obtain ⟨holder, isHolder, named, _, unserved⟩ := serving.occupied time job.id holds
    cases Job.eq_of_id isHolder submitted named
    rw [if_pos holds]
    unfold Job.leftBefore at unserved
    omega
  next elsewhere =>
    rw [if_neg elsewhere]
    omega

theorem leftBefore_of_le_arrival (submitted : job ∈ Job.ofWorkload workload)
    (early : time ≤ job.arrival) : job.leftBefore record time = job.service := by
  have untouched : workedBefore record job.id time = 0 := by
    refine List.countP_eq_zero.mpr fun tick held => ?_
    have holds := serving.chronological.mem_heldTicks.mp held
    obtain ⟨holder, isHolder, named, arrived, _⟩ := serving.occupied tick job.id holds
    cases Job.eq_of_id isHolder submitted named
    simp only [decide_eq_true_eq]
    omega
  rw [Job.leftBefore, untouched, Nat.sub_zero]

theorem sum_leftBefore (time : Nat)
    (submitted : ∀ job ∈ chosen, job ∈ Job.ofWorkload workload) :
    ∑ job ∈ chosen, job.leftBefore record time =
      ∑ job ∈ chosen, job.leftBefore record (time + 1) +
        (chosen.filter fun job => occupantAt record time = some job.id).card := by
  rw [Finset.card_filter, ← Finset.sum_add_distrib]
  exact Finset.sum_congr rfl fun job member => serving.leftBefore_succ (submitted job member) time

theorem sum_leftBefore_le (time : Nat)
    (submitted : ∀ job ∈ chosen, job ∈ Job.ofWorkload workload) :
    ∑ job ∈ chosen, job.leftBefore record time ≤
      ∑ job ∈ chosen, job.leftBefore record (time + 1) + 1 := by
  have atMostOne : (chosen.filter fun job => occupantAt record time = some job.id).card ≤ 1 := by
    refine Finset.card_le_one.mpr fun first isFirst second isSecond => ?_
    obtain ⟨firstMember, firstHolds⟩ := Finset.mem_filter.mp isFirst
    obtain ⟨secondMember, secondHolds⟩ := Finset.mem_filter.mp isSecond
    exact Job.eq_of_id (submitted first firstMember) (submitted second secondMember)
      (Option.some.inj (firstHolds.symm.trans secondHolds))
  rw [serving.sum_leftBefore time submitted]
  exact Nat.add_le_add_left atMostOne _

theorem sum_leftBefore_of_mem (submitted : ∀ job ∈ chosen, job ∈ Job.ofWorkload workload)
    (member : job ∈ chosen) (holds : occupantAt record time = some job.id) :
    ∑ job ∈ chosen, job.leftBefore record (time + 1) + 1 ≤
      ∑ job ∈ chosen, job.leftBefore record time := by
  have taken : 0 < (chosen.filter fun job => occupantAt record time = some job.id).card :=
    Finset.card_pos.mpr ⟨job, Finset.mem_filter.mpr ⟨member, holds⟩⟩
  rw [serving.sum_leftBefore time submitted]
  exact Nat.add_le_add_left taken _

/-- Where the shortest job comes first, a set of jobs from which the tick takes nothing
can be exchanged for one of as many jobs that has no more left and does lose one. -/
theorem exchange {bound : Nat} (shortest : ShortestFirst workload record)
    (arrived : chosen ⊆ released workload time)
    (bounded : ∑ job ∈ chosen, job.leftBefore record time ≤ bound + 1) :
    ∃ other ⊆ released workload time, other.card = chosen.card ∧
      ∑ job ∈ other, job.leftBefore record (time + 1) ≤ bound := by
  have submitted {jobs : Finset Job} (within : jobs ⊆ released workload time) :
      ∀ job ∈ jobs, job ∈ Job.ofWorkload workload :=
    fun job member => (mem_released.mp (within member)).1
  by_cases allDone : ∀ job ∈ chosen, job.leftBefore record time = 0
  · refine ⟨chosen, arrived, rfl, ?_⟩
    have nothing : ∑ job ∈ chosen, job.leftBefore record time = 0 := Finset.sum_eq_zero allDone
    have parts := serving.sum_leftBefore time (submitted arrived)
    omega
  · push Not at allDone
    obtain ⟨job, member, unserved⟩ := allDone
    obtain ⟨isJob, jobArrived⟩ := mem_released.mp (arrived member)
    cases occupant : occupantAt record time with
    | none => exact absurd (serving.rests time occupant job isJob jobArrived) unserved
    | some id =>
        obtain ⟨holder, isHolder, rfl, holderArrived, _⟩ := serving.occupied time id occupant
        have less := shortest time holder isHolder occupant job isJob jobArrived
          (Nat.pos_of_ne_zero unserved)
        by_cases already : holder ∈ chosen
        · have drops := serving.sum_leftBefore_of_mem (submitted arrived) already occupant
          exact ⟨chosen, arrived, rfl, by omega⟩
        · have fresh : holder ∉ chosen.erase job := fun inside =>
            already (Finset.mem_of_mem_erase inside)
          have within : insert holder (chosen.erase job) ⊆ released workload time := by
            refine Finset.insert_subset (mem_released.mpr ⟨isHolder, holderArrived⟩) ?_
            exact (Finset.erase_subset job chosen).trans arrived
          have drops := serving.sum_leftBefore_of_mem (submitted within)
            (Finset.mem_insert_self holder _) occupant
          have swapped := Finset.sum_insert (f := fun job => job.leftBefore record time) fresh
          have removed := Finset.add_sum_erase chosen (fun job => job.leftBefore record time) member
          refine ⟨_, within, ?_, ?_⟩
          · rw [Finset.card_insert_of_notMem fresh, Finset.card_erase_add_one member]
          · omega

end Serving

/-- Of as many jobs as any set has, shortest first has no more left than another run has of that
set.  The induction is on time; a set is first cut to those of its jobs that came before. -/
theorem ShortestFirst.majorizes {record other : Array TraceEntry}
    (shortest : ShortestFirst workload record) (serving : Serving workload record)
    (otherServing : Serving workload other) (time : Nat) {chosen : Finset Job}
    (arrived : chosen ⊆ released workload time) :
    ∃ matched ⊆ released workload time, matched.card = chosen.card ∧
      ∑ job ∈ matched, job.leftBefore record time ≤ ∑ job ∈ chosen, job.leftBefore other time := by
  induction time generalizing chosen with
  | zero =>
      refine ⟨chosen, arrived, rfl, Finset.sum_le_sum fun job member => ?_⟩
      have submitted := (mem_released.mp (arrived member)).1
      rw [serving.leftBefore_of_le_arrival submitted (Nat.zero_le _),
        otherServing.leftBefore_of_le_arrival submitted (Nat.zero_le _)]
  | succ time inductionHypothesis =>
      have earlyArrived : chosen.filter (·.arrival ≤ time) ⊆ released workload time := by
        intro job member
        obtain ⟨inChosen, early⟩ := Finset.mem_filter.mp member
        exact mem_released.mpr ⟨(mem_released.mp (arrived inChosen)).1, early⟩
      obtain ⟨matched, matchedArrived, sameCard, bounded⟩ := inductionHypothesis earlyArrived
      have loses := otherServing.sum_leftBefore_le time fun job member =>
        (mem_released.mp (earlyArrived member)).1
      obtain ⟨swapped, swappedArrived, swappedCard, less⟩ :=
        serving.exchange shortest matchedArrived (bounded.trans loses)
      have disjoint : Disjoint swapped (chosen.filter fun job => ¬job.arrival ≤ time) := by
        refine Finset.disjoint_left.mpr fun job inSwapped isLate => ?_
        exact (Finset.mem_filter.mp isLate).2 (mem_released.mp (swappedArrived inSwapped)).2
      have newcomers : ∑ job ∈ chosen.filter (fun job => ¬job.arrival ≤ time),
          job.leftBefore record (time + 1) =
          ∑ job ∈ chosen.filter (fun job => ¬job.arrival ≤ time),
            job.leftBefore other (time + 1) := by
        refine Finset.sum_congr rfl fun job member => ?_
        obtain ⟨inChosen, late⟩ := Finset.mem_filter.mp member
        have submitted := (mem_released.mp (arrived inChosen)).1
        rw [serving.leftBefore_of_le_arrival submitted (by omega),
          otherServing.leftBefore_of_le_arrival submitted (by omega)]
      refine ⟨swapped ∪ chosen.filter (fun job => ¬job.arrival ≤ time), ?_, ?_, ?_⟩
      · refine Finset.union_subset (fun job member => ?_) ((Finset.filter_subset _ _).trans arrived)
        obtain ⟨submitted, early⟩ := mem_released.mp (swappedArrived member)
        exact mem_released.mpr ⟨submitted, Nat.le_succ_of_le early⟩
      · rw [Finset.card_union_of_disjoint disjoint, swappedCard, sameCard,
          Finset.card_filter_add_card_filter_not]
      · rw [Finset.sum_union disjoint, newcomers,
          ← Finset.sum_filter_add_sum_filter_not chosen (·.arrival ≤ time)]
        exact Nat.add_le_add_right less _

variable {config : Config} {policy : Policy} {schedule : Schedule}

theorem serving_of_simulate (ran : simulate workload config policy = .ok schedule) :
    Serving workload schedule.trace := by
  have conserves := workConserving_of_simulate ran
  obtain ⟨last, orderly, _, finished, reports⟩ := exists_last_of_simulate ran
  obtain ⟨woken, awaited, conserving, _⟩ := orderly.conserving
  have settled := conserving.orderly.settled
  have ordered := settled.chronological
  rw [reports.record] at conserves ⊢
  refine ⟨ordered, fun time id holds => ?_, fun time rests job submitted arrived => ?_⟩
  · have held := ordered.mem_heldTicks.mpr holds
    cases present : last.kernel.machine.job? id with
    | none => simp [settled.known id present] at held
    | some job =>
        obtain ⟨named, submitted⟩ := settled.blank_eq present
        have balanced := settled.balanced id job present
        refine ⟨job.blank, submitted, named, (balanced.past time held).1, ?_⟩
        have notYet : workedBefore last.kernel.machine.trace id time <
            (heldTicks last.kernel.machine.trace id).length := by
          refine Nat.lt_of_le_of_ne List.countP_le_length fun all => ?_
          have past := List.countP_eq_length.mp all time held
          simp at past
        have worked := balanced.worked
        change 0 < job.service - workedBefore last.kernel.machine.trace job.id time
        rw [named]
        omega
  · by_cases inTrace : time < last.kernel.machine.trace.size
    · rw [Job.leftBefore, conserves time (ordered.mem_idleTicks.mpr ⟨inTrace, rests⟩) job submitted
        arrived, Nat.sub_self]
    · obtain ⟨found, present, _, left, finished_iff⟩ := settled.leftBefore_eq submitted
      have isFinished :=
        settled.allFinished_iff.mp finished found (Machine.mem_jobs_of_job? present)
      have allWorked : job.leftBefore last.kernel.machine.trace time =
          job.leftBefore last.kernel.machine.trace last.kernel.machine.trace.size := by
        rw [Job.leftBefore, Job.leftBefore,
          Chronological.workedBefore_of_past fun tick held =>
            ordered.lt_size_of_mem_heldTicks held,
          Chronological.workedBefore_of_past fun tick held => by
            have before := ordered.lt_size_of_mem_heldTicks held
            omega]
      rw [allWorked, left, finished_iff.mp isFinished]

theorem Job.Traced.completed_iff {record : Array TraceEntry} {job : Job}
    {start completion waiting : Nat} (traced : job.Traced record start completion waiting)
    (ordered : Chronological record) (time : Nat) :
    completion ≤ time ↔ job.arrival ≤ time ∧ job.leftBefore record time = 0 := by
  have positive := traced.completion_pos
  have held := traced.held
  have bounded := ordered.le_last_heldTicks traced.last
  have lastHeld := List.mem_of_getLast? traced.last
  constructor
  · intro completed
    have started := bounded start (List.mem_of_head? traced.first)
    have arrived := traced.arrival_le
    refine ⟨by omega, ?_⟩
    rw [Job.leftBefore, Chronological.workedBefore_of_past fun tick member => by
      have inTime := bounded tick member
      omega]
    omega
  · rintro ⟨_, done⟩
    by_contra unfinished
    have allPast : workedBefore record job.id time = (heldTicks record job.id).length := by
      refine Nat.le_antisymm List.countP_le_length ?_
      unfold Job.leftBefore at done
      omega
    have past := List.countP_eq_length.mp allPast _ lastHeld
    simp only [decide_eq_true_eq] at past
    omega

namespace Schedule

/-- How many jobs have completed by a time. -/
def completedBy (schedule : Schedule) (time : Nat) : Nat :=
  schedule.jobs.countP fun job => job.completion.any (· ≤ time)

def totalTurnaround (schedule : Schedule) : Nat :=
  (schedule.jobs.filterMap (·.turnaround)).sum

def totalWaiting (schedule : Schedule) : Nat :=
  (schedule.jobs.filterMap (·.waiting)).sum

end Schedule

theorem completedBy_eq_card (ran : simulate workload config policy = .ok schedule) (time : Nat) :
    schedule.completedBy time =
      ((released workload time).filter fun job => job.leftBefore schedule.trace time = 0).card := by
  have ordered := (serving_of_simulate ran).chronological
  obtain ⟨table, traced⟩ := traced_of_simulate ran
  have nodup : (Job.ofWorkload workload).Nodup := by
    refine List.Nodup.of_map Job.id ?_
    rw [Job.map_id_ofWorkload]
    exact List.nodup_range'
  have sameJobs : schedule.completedBy time = (Job.ofWorkload workload).countP fun job =>
      job.arrival ≤ time ∧ job.leftBefore schedule.trace time = 0 := by
    rw [← table, List.countP_map, Schedule.completedBy]
    refine List.countP_congr fun job member => ?_
    obtain ⟨start, completion, waiting, books, _⟩ := traced job member
    have completed := books.completed_iff ordered time
    simp only [books.completion_eq, Option.any_some, decide_eq_true_eq, Function.comp_apply]
    exact completed
  have sameSet : (released workload time).filter
      (fun job => job.leftBefore schedule.trace time = 0) =
      ((Job.ofWorkload workload).filter fun job =>
        job.arrival ≤ time ∧ job.leftBefore schedule.trace time = 0).toFinset := by
    ext job
    simp [and_assoc]
  rw [sameJobs, sameSet, List.toFinset_card_of_nodup (nodup.filter _), List.countP_eq_length_filter]

theorem completedBy_le {shortest other : Schedule}
    (ran : simulate workload config .srtf = .ok shortest)
    (otherRan : simulate workload config policy = .ok other) (time : Nat) :
    other.completedBy time ≤ shortest.completedBy time := by
  rw [completedBy_eq_card ran, completedBy_eq_card otherRan]
  obtain ⟨matched, arrived, sameCard, bounded⟩ := (shortestFirst_of_simulate ran).majorizes
    (serving_of_simulate ran) (serving_of_simulate otherRan) time
    (Finset.filter_subset (fun job => job.leftBefore other.trace time = 0) _)
  have nothing : ∑ job ∈ (released workload time).filter
      (fun job => job.leftBefore other.trace time = 0), job.leftBefore other.trace time = 0 :=
    Finset.sum_eq_zero fun job member => (Finset.mem_filter.mp member).2
  rw [nothing, Nat.le_zero, Finset.sum_eq_zero_iff] at bounded
  rw [← sameCard]
  exact Finset.card_le_card fun job member =>
    Finset.mem_filter.mpr ⟨arrived member, bounded job member⟩

section Totals

theorem min_add_sum_le (completion limit : Nat) :
    min completion limit + ∑ time ∈ Finset.range limit, (if completion ≤ time then 1 else 0) =
      limit := by
  induction limit with
  | zero => simp
  | succ limit inductionHypothesis =>
      rw [Finset.sum_range_succ]
      split <;> omega

/-- Completion times can be counted tick by tick: in each tick by the jobs that have not
completed yet. -/
theorem sum_completion {jobs : List Job} {limit : Nat}
    (completes : ∀ job ∈ jobs, ∃ completion, job.completion = some completion ∧
      completion ≤ limit) :
    (jobs.filterMap (·.completion)).sum +
        ∑ time ∈ Finset.range limit, jobs.countP (fun job => job.completion.any (· ≤ time)) =
      jobs.length * limit := by
  induction jobs with
  | nil => simp
  | cons job rest inductionHypothesis =>
      have others := inductionHypothesis fun other member =>
        completes other (List.mem_cons_of_mem job member)
      obtain ⟨completion, isCompletion, inTime⟩ := completes job List.mem_cons_self
      have counted := min_add_sum_le completion limit
      rw [Nat.min_eq_left inTime] at counted
      simp only [List.filterMap_cons, isCompletion, List.sum_cons, List.countP_cons, Option.any_some,
        decide_eq_true_eq, Finset.sum_add_distrib, List.length_cons, Nat.succ_mul]
      omega

theorem sum_filterMap_add {jobs : List Job} {whole part : Job → Option Nat} {rest : Job → Nat}
    (splits : ∀ job ∈ jobs, ∃ amount, part job = some amount ∧
      whole job = some (amount + rest job)) :
    (jobs.filterMap whole).sum = (jobs.filterMap part).sum + (jobs.map rest).sum := by
  induction jobs with
  | nil => rfl
  | cons job others inductionHypothesis =>
      have all := inductionHypothesis fun other member =>
        splits other (List.mem_cons_of_mem job member)
      obtain ⟨amount, isPart, isWhole⟩ := splits job List.mem_cons_self
      simp only [List.filterMap_cons, isPart, isWhole, List.sum_cons, List.map_cons, all]
      omega

/-- Turnaround adds arrivals, and waiting adds services, to what policies can change. -/
theorem totals_of_simulate (ran : simulate workload config policy = .ok schedule) :
    schedule.totalTurnaround + ((Job.ofWorkload workload).map (·.arrival)).sum +
        ∑ time ∈ Finset.range (makespan workload), schedule.completedBy time =
      workload.length * makespan workload ∧
    schedule.totalTurnaround =
      schedule.totalWaiting + ((Job.ofWorkload workload).map (·.service)).sum := by
  obtain ⟨table, traced⟩ := traced_of_simulate ran
  have ordered := (serving_of_simulate ran).chronological
  have completions := @sum_completion schedule.jobs (makespan workload) fun job member => by
    obtain ⟨_, completion, _, books, inTime⟩ := traced job member
    exact ⟨completion, books.completion_eq, inTime⟩
  have count : schedule.jobs.length = workload.length := by
    have sameLength := congrArg List.length table
    simpa using sameLength
  have arrivals : schedule.jobs.map (·.arrival) = (Job.ofWorkload workload).map (·.arrival) := by
    rw [← table, List.map_map]
    rfl
  have services : schedule.jobs.map (·.service) = (Job.ofWorkload workload).map (·.service) := by
    rw [← table, List.map_map]
    rfl
  have turnarounds : (schedule.jobs.filterMap (·.completion)).sum =
      (schedule.jobs.filterMap (·.turnaround)).sum + (schedule.jobs.map (·.arrival)).sum := by
    refine sum_filterMap_add fun job member => ?_
    obtain ⟨start, completion, waiting, books, _⟩ := traced job member
    have started := ordered.le_last_heldTicks books.last start (List.mem_of_head? books.first)
    have arrived := books.arrival_le
    refine ⟨completion - job.arrival, books.turnaround_eq, ?_⟩
    rw [books.completion_eq, Nat.sub_add_cancel (by omega)]
  have waitings : (schedule.jobs.filterMap (·.turnaround)).sum =
      (schedule.jobs.filterMap (·.waiting)).sum + (schedule.jobs.map (·.service)).sum := by
    refine sum_filterMap_add fun job member => ?_
    obtain ⟨start, completion, waiting, books, _⟩ := traced job member
    refine ⟨waiting, books.waiting_eq, ?_⟩
    rw [books.turnaround_eq, books.divides]
  rw [count, turnarounds, arrivals] at completions
  exact ⟨completions, services ▸ waitings⟩

end Totals

/-- By any time, no policy has completed more jobs than shortest remaining time first;
so none has a smaller total of turnaround or of waiting. -/
theorem simulate_srtf_optimal {shortest other : Schedule}
    (ran : simulate workload config .srtf = .ok shortest)
    (otherRan : simulate workload config policy = .ok other) :
    (∀ time, other.completedBy time ≤ shortest.completedBy time) ∧
      shortest.totalTurnaround ≤ other.totalTurnaround ∧
      shortest.totalWaiting ≤ other.totalWaiting := by
  have more := completedBy_le ran otherRan
  obtain ⟨turnaround, waiting⟩ := totals_of_simulate ran
  obtain ⟨otherTurnaround, otherWaiting⟩ := totals_of_simulate otherRan
  have counts : ∑ time ∈ Finset.range (makespan workload), other.completedBy time ≤
      ∑ time ∈ Finset.range (makespan workload), shortest.completedBy time :=
    Finset.sum_le_sum fun time _ => more time
  exact ⟨more, by omega, by omega⟩

/-- The second job overtakes the first one, which has more left. -/
theorem simulate_srtf_optimal_overtaking :
    ∃ shortest other,
      simulate [⟨0, 5, 0⟩, ⟨1, 1, 0⟩] { maxTicks := 10 } .srtf = .ok shortest ∧
      simulate [⟨0, 5, 0⟩, ⟨1, 1, 0⟩] { maxTicks := 10 } .fcfs = .ok other ∧
      shortest.timeline = [some 1, some 2, some 1, some 1, some 1, some 1] ∧
      other.timeline = [some 1, some 1, some 1, some 1, some 1, some 2] ∧
      (∀ time, other.completedBy time ≤ shortest.completedBy time) ∧
      shortest.totalTurnaround ≤ other.totalTurnaround ∧
      shortest.totalWaiting ≤ other.totalWaiting := by
  obtain ⟨shortest, ran, timeline⟩ := exists_of_timeline
    (show (simulate [⟨0, 5, 0⟩, ⟨1, 1, 0⟩] { maxTicks := 10 } .srtf).toOption.map
      Schedule.timeline = some [some 1, some 2, some 1, some 1, some 1, some 1] by
        decide +kernel)
  obtain ⟨other, otherRan, otherTimeline⟩ := exists_of_timeline
    (show (simulate [⟨0, 5, 0⟩, ⟨1, 1, 0⟩] { maxTicks := 10 } .fcfs).toOption.map
      Schedule.timeline = some [some 1, some 1, some 1, some 1, some 1, some 2] by
        decide +kernel)
  exact ⟨shortest, other, ran, otherRan, timeline, otherTimeline,
    simulate_srtf_optimal ran otherRan⟩

end CpuScheduling
