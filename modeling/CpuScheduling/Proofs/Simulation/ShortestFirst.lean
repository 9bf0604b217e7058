import CpuScheduling.Proofs.Kernel.Ranks
import CpuScheduling.Proofs.Simulation.WorkConservation

/-!
Where the shortest remaining time comes first, no job that has arrived has less left
to do than the one that has the CPU.  Keys of ranks cannot tell apart what reaches
`2 ^ 63`, but of two jobs that a clock can serve at most one has that much to do.
-/

namespace CpuScheduling

/-- What a job still has to get at a time. -/
def Job.leftBefore (record : Array TraceEntry) (job : Job) (time : Nat) : Nat :=
  job.service - workedBefore record job.id time

/-- In a busy tick no job that has arrived has less left than the occupant. -/
def ShortestFirst (workload : List Spec) (record : Array TraceEntry) : Prop :=
  ∀ time, ∀ holder ∈ Job.ofWorkload workload, occupantAt record time = some holder.id →
    ∀ job ∈ Job.ofWorkload workload, job.arrival ≤ time → 0 < job.leftBefore record time →
      holder.leftBefore record time ≤ job.leftBefore record time

variable {workload : List Spec}

theorem add_le_demand {jobs : List Job} {first second : Job} (isFirst : first ∈ jobs)
    (isSecond : second ∈ jobs) (different : first ≠ second) :
    first.service + second.service ≤ demand jobs := by
  obtain ⟨early, late, rfl⟩ := List.append_of_mem isFirst
  have elsewhere : second ∈ early ++ late := by
    simpa [Ne.symm different] using isSecond
  have counted : second.service ≤ demand (early ++ late) :=
    List.le_sum_of_mem (List.mem_map_of_mem elsewhere)
  have others := demand_append early late
  have whole : demand (early ++ first :: late) = demand early + (first.service + demand late) := by
    simp [demand]
  omega

namespace Scheduler

theorem remaining_le_of_rank {first second : Job} (notLower : ¬srtf.rank first < srtf.rank second)
    (total : first.remaining + second.remaining < wordSize) :
    first.remaining ≤ second.remaining := by
  simp only [rank, Rank.lowestFirst, Rank.lt_iff] at notLower
  simp only [wordSize, UInt64.size] at total
  omega

variable {machine started : Machine} {id : Nat}

/-- The job that gets or keeps the CPU has no more left than any other that is ready or
running. -/
theorem dispatch_shortest (orderly : machine.Orderly workload machine.now [])
    (fresh : machine.FreshRanks srtf) (dispatches : srtf.dispatch machine = .ok started)
    (holds : started.cpu.current = some id)
    (total : ∀ first second job other, first ≠ second → machine.job? first = some job →
      machine.job? second = some other → job.remaining + other.remaining < wordSize) :
    ∃ job, machine.job? id = some job ∧ ∀ other waiting, machine.job? other = some waiting →
      waiting.phase = .ready ∨ waiting.phase = .running → job.remaining ≤ waiting.remaining := by
  have placement := orderly.placement
  have queued (other : Nat) (waiting : Job) (present : machine.job? other = some waiting)
      (ready : waiting.phase = .ready) : other ∈ machine.ready.ids :=
    (placement.mem_iff other).mpr (Machine.phase?_eq_some_iff.mpr ⟨waiting, present, ready⟩)
  have onCpu (other : Nat) (waiting : Job) (present : machine.job? other = some waiting)
      (running : waiting.phase = .running) : machine.cpu.current = some other :=
    (placement.current_iff other).mpr (Machine.phase?_eq_some_iff.mpr ⟨waiting, present, running⟩)
  have front (first other : Nat) (job waiting : Job) (picked : machine.ready.peek = some first)
      (present : machine.job? first = some job) (isWaiting : machine.job? other = some waiting)
      (ready : waiting.phase = .ready) : job.remaining ≤ waiting.remaining := by
    by_cases same : first = other
    · subst same
      cases present.symm.trans isWaiting
      exact Nat.le_refl _
    · exact remaining_le_of_rank
        (fresh.not_rank_lt picked present (queued other waiting isWaiting ready) isWaiting)
        (total first other job waiting same present isWaiting)
  cases current : machine.cpu.current with
  | none =>
      rw [dispatch, current] at dispatches
      rcases fillCpu_ok dispatches with
        ⟨_, rfl⟩ | ⟨picked, job, _, isPicked, _, present, _, rfl⟩
      · simp [current] at holds
      · cases holds
        refine ⟨job, present, fun other waiting isWaiting => ?_⟩
        rintro (ready | running)
        · exact front id other job waiting isPicked present isWaiting ready
        · simp [onCpu other waiting isWaiting running] at current
  | some holder =>
      have contests : srtf.contest machine holder = .ok started := by
        simpa only [dispatch, current] using dispatches
      have sameHolder (other : Nat) (waiting : Job) (present : machine.job? other = some waiting)
          (running : waiting.phase = .running) : other = holder :=
        Option.some.inj ((onCpu other waiting present running).symm.trans current)
      rcases contest_ok current contests with
        ⟨nobody, rfl⟩ | ⟨job, candidateId, candidate, isPicked, present, isCandidate, rest⟩
      · have same := Option.some.inj (current.symm.trans holds)
        subst same
        have empty := ReadyQueue.peek_eq_none_iff.mp nobody
        have isRunning := (placement.current_iff holder).mp current
        obtain ⟨job, present, _⟩ := Machine.phase?_eq_some_iff.mp isRunning
        refine ⟨job, present, fun other waiting isWaiting => ?_⟩
        rintro (ready | running)
        · simpa [empty] using queued other waiting isWaiting ready
        · cases sameHolder other waiting isWaiting running
          cases present.symm.trans isWaiting
          exact Nat.le_refl _
      · rcases rest with ⟨stays, rfl⟩ | ⟨wins, _, _, _, _, _, _, _, _, rfl⟩
        · have same := Option.some.inj (current.symm.trans holds)
          subst same
          have noLess : job.remaining ≤ candidate.remaining := by
            simpa [displaces] using stays
          refine ⟨job, present, fun other waiting isWaiting => ?_⟩
          rintro (ready | running)
          · have ahead := front candidateId other candidate waiting isPicked isCandidate isWaiting
              ready
            omega
          · cases sameHolder other waiting isWaiting running
            cases present.symm.trans isWaiting
            exact Nat.le_refl _
        · cases holds
          have less : candidate.remaining < job.remaining := by
            simpa [displaces] using wins
          refine ⟨candidate, isCandidate, fun other waiting isWaiting => ?_⟩
          rintro (ready | running)
          · exact front id other candidate waiting isPicked isCandidate isWaiting ready
          · cases sameHolder other waiting isWaiting running
            cases present.symm.trans isWaiting
            exact Nat.le_of_lt less

end Scheduler

theorem Job.leftBefore_push {record : Array TraceEntry} {job : Job} {time later : Nat}
    {occupant : Option Nat} (before : time ≤ later) :
    job.leftBefore (record.push ⟨later, occupant⟩) time = job.leftBefore record time := by
  rw [leftBefore, Chronological.workedBefore_push before, leftBefore]

@[simp]
theorem Job.leftBefore_append_idleTrace (record : Array TraceEntry) (job : Job)
    (first ticks time : Nat) :
    job.leftBefore (record ++ Machine.idleTrace first ticks) time = job.leftBefore record time := by
  simp [leftBefore, workedBefore]

theorem ShortestFirst.push {record : Array TraceEntry} {occupant : Option Nat}
    (shortest : ShortestFirst workload record)
    (decision : ∀ holder ∈ Job.ofWorkload workload, occupant = some holder.id →
      ∀ job ∈ Job.ofWorkload workload, job.arrival ≤ record.size →
        0 < job.leftBefore record record.size →
        holder.leftBefore record record.size ≤ job.leftBefore record record.size) :
    ShortestFirst workload (record.push ⟨record.size, occupant⟩) := by
  intro time holder isHolder holds job isJob arrived unserved
  rw [occupantAt_push] at holds
  by_cases last : time = record.size
  · subst last
    rw [Job.leftBefore_push (Nat.le_refl _)] at unserved ⊢
    rw [Job.leftBefore_push (Nat.le_refl _)]
    rw [if_pos rfl] at holds
    exact decision holder isHolder holds job isJob arrived unserved
  · rw [if_neg last] at holds
    have before := Nat.le_of_lt (Chronological.lt_size_of_occupantAt holds)
    rw [Job.leftBefore_push before] at unserved ⊢
    rw [Job.leftBefore_push before]
    exact shortest time holder isHolder holds job isJob arrived unserved

theorem Machine.Booked.leftBefore_eq {clock : Nat} {machine : Machine}
    (booked : machine.Booked workload clock) {job : Job} (member : job ∈ Job.ofWorkload workload) :
    ∃ found, machine.job? job.id = some found ∧ found.blank = job ∧
      job.leftBefore machine.trace machine.trace.size = found.remaining ∧
      (found.phase = .finished ↔ found.remaining = 0) := by
  obtain ⟨found, present, rfl⟩ := booked.exists_submitted member
  have balanced := booked.balanced _ found present
  have worked : (heldTicks machine.trace found.blank.id).length + found.remaining =
      found.blank.service := balanced.worked
  refine ⟨found, present, rfl, ?_, balanced.finished_iff⟩
  rw [Job.leftBefore, Chronological.workedBefore_of_past fun tick held =>
    booked.chronological.lt_size_of_mem_heldTicks held]
  omega

namespace Kernel

theorem remaining_add_lt {machine : Machine} {clock : Nat}
    (booked : machine.Booked workload clock) (small : demand (arrivals workload) < wordSize)
    (first second : Nat) (job other : Job) (different : first ≠ second)
    (present : machine.job? first = some job) (isOther : machine.job? second = some other) :
    job.remaining + other.remaining < wordSize := by
  obtain ⟨named, submitted⟩ := booked.blank_eq present
  obtain ⟨otherNamed, otherSubmitted⟩ := booked.blank_eq isOther
  have distinct : job.blank ≠ other.blank := by
    intro same
    have sameId : job.blank.id = other.blank.id := congrArg Job.id same
    exact different (named.symm.trans (sameId.trans otherNamed))
  have together :=
    add_le_demand (mem_arrivals.mpr submitted) (mem_arrivals.mpr otherSubmitted) distinct
  have services : job.blank.service = job.service ∧ other.blank.service = other.service :=
    ⟨rfl, rfl⟩
  have worked := (booked.balanced first job present).worked
  have otherWorked := (booked.balanced second other isOther).worked
  omega

theorem maintained_shortestFirst (small : demand (arrivals workload) < wordSize) :
    Maintained workload .srtf fun _ kernel =>
      kernel.machine.FreshRanks .srtf ∧ ShortestFirst workload kernel.machine.trace where
  wake := by
    intro history kernel next woken job awaited _ scheduled _ wakes ⟨fresh, shortest⟩
    have stillFresh := wake_freshRanks (scheduled ▸ fresh) wakes
    obtain ⟨_, _, _, _, _, _, rfl⟩ := wake_ok wakes
    exact ⟨scheduled ▸ stillFresh, shortest⟩
  tick := by
    intro history kernel woken awaited requeued started work worked closed news
      conserving scheduled later phases _ _ change ⟨fresh, shortest⟩
    obtain ⟨requeuedFresh, _, closedFresh⟩ := phases.freshRanks (scheduled ▸ fresh)
    refine ⟨scheduled ▸ closedFresh, ?_⟩
    have settled := phases.settled
    have sameRecord := phases.requeue.record
    have elapsed := conserving.orderly.settled.elapsed
    rw [change.record, ← elapsed]
    refine shortest.push fun holder isHolder holds job isJob arrived unserved => ?_
    rw [← sameRecord] at unserved ⊢
    obtain ⟨found, present, rfl, left, finished_iff⟩ := settled.leftBefore_eq isJob
    obtain ⟨heldBy, isHeldBy, rfl, holderLeft, _⟩ := settled.leftBefore_eq isHolder
    have dispatches := phases.dispatches
    rw [scheduled] at dispatches requeuedFresh
    obtain ⟨chosen, isChosen, least⟩ := Scheduler.dispatch_shortest settled.toOrderly
      requeuedFresh dispatches holds (remaining_add_lt settled.toBooked small)
    cases isHeldBy.symm.trans isChosen
    rw [left] at unserved ⊢
    rw [holderLeft]
    have unfinished : found.phase ≠ .finished := fun finished => by
      have done := finished_iff.mp finished
      omega
    have notPending : found.phase ≠ .pending := fun isPending =>
      phases.notPending conserving.toFed later isJob (elapsed ▸ arrived)
        (Machine.phase?_eq_some_iff.mpr ⟨found, present, isPending⟩)
    refine least _ found present ?_
    cases phase : found.phase with
    | pending => exact absurd phase notPending
    | ready => exact .inl rfl
    | running => exact .inr rfl
    | finished => exact absurd phase unfinished
  rest := by
    intro history kernel woken awaited ticks _ _ _ _ _ ⟨fresh, shortest⟩
    refine ⟨fresh, fun time holder isHolder holds job isJob arrived unserved => ?_⟩
    simp only [Kernel.rested, Machine.rested, occupantAt_append_idleTrace,
      Job.leftBefore_append_idleTrace] at holds unserved ⊢
    exact shortest time holder isHolder holds job isJob arrived unserved

end Kernel

variable {config : Config} {schedule : Schedule}

/-- What a run has served fits into a word, as the clock has shown the time it took. -/
theorem demand_lt_of_simulate {policy : Policy}
    (ran : simulate workload config policy = .ok schedule) :
    demand (arrivals workload) < wordSize := by
  obtain ⟨last, orderly, inTime, _, _⟩ := exists_last_of_simulate ran
  obtain ⟨_, _, served⟩ := served_of_simulate ran
  have limit := orderly.limit
  have ends := orderly.inTime
  rw [demand_arrivals]
  omega

theorem shortestFirst_of_simulate (ran : simulate workload config .srtf = .ok schedule) :
    ShortestFirst workload schedule.trace := by
  obtain ⟨last, _, _, _, _, reports, _, shortest⟩ :=
    (Kernel.maintained_shortestFirst (demand_lt_of_simulate ran)).simulate rfl
      ⟨Machine.ofWorkload_freshRanks .., by simp [ShortestFirst, Kernel.initial,
        Machine.ofWorkload, occupantAt]⟩ ran
  rw [reports.record]
  exact shortest

end CpuScheduling
