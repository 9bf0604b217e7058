import CpuScheduling.Audit

/-!
The books of one job.  `Balanced` ties what the machine keeps about a job to the
ticks in which the job held the CPU; each event in the life of a job keeps the
books balanced, and none of the checks on the way is broken.
-/

namespace CpuScheduling.Job

def blank (job : Job) : Job where
  id := job.id
  arrival := job.arrival
  service := job.service
  priority := job.priority
  effectivePriority := job.priority
  phase := .pending
  remaining := job.service
  firstStart := none
  completion := none
  turnaround := none
  waiting := none
  response := none

@[simp]
theorem blank_ofSpec (id : Nat) (spec : Spec) : (ofSpec id spec).blank = ofSpec id spec := rfl

theorem map_blank_number (first : Nat) (workload : List Spec) :
    (number first workload).map blank = number first workload := by
  induction workload generalizing first with
  | nil => rfl
  | cons spec rest inductionHypothesis => simp [number, inductionHypothesis]

@[simp]
theorem map_blank_ofWorkload (workload : List Spec) :
    (ofWorkload workload).map blank = ofWorkload workload :=
  map_blank_number 1 workload

theorem map_id_number (first : Nat) (workload : List Spec) :
    (number first workload).map (·.id) = List.range' first workload.length := by
  induction workload generalizing first with
  | nil => rfl
  | cons spec rest inductionHypothesis =>
      simp [number, ofSpec, inductionHypothesis, List.range'_succ]

theorem map_id_ofWorkload (workload : List Spec) :
    (ofWorkload workload).map (·.id) = List.range' 1 workload.length :=
  map_id_number 1 workload

theorem getElem?_ofWorkload (workload : List Spec) (index : Nat) :
    (ofWorkload workload)[index]? = workload[index]?.map (ofSpec (index + 1)) := by
  rw [ofWorkload, getElem?_number, Nat.add_comm]

theorem mem_ofWorkload {workload : List Spec} {job : Job} :
    job ∈ ofWorkload workload ↔
      ∃ index spec, workload[index]? = some spec ∧ ofSpec (index + 1) spec = job := by
  simp only [List.mem_iff_getElem?, getElem?_ofWorkload, Option.map_eq_some_iff]

theorem blank_of_mem_ofWorkload {workload : List Spec} {job : Job}
    (member : job ∈ ofWorkload workload) : job.blank = job := by
  obtain ⟨index, spec, _, rfl⟩ := mem_ofWorkload.mp member
  rfl

theorem phase_of_mem_ofWorkload {workload : List Spec} {job : Job}
    (member : job ∈ ofWorkload workload) : job.phase = .pending := by
  rw [← blank_of_mem_ofWorkload member]
  rfl

/-- The books of a job agree with the ticks that it held the CPU before `now`.
A running job counts as started even if its first tick begins only now. -/
structure Balanced (fixesWaiting : Bool) (now : Nat) (held : List Nat) (job : Job) : Prop where
  positive : 0 < job.service
  worked : held.length + job.remaining = job.service
  finished_iff : job.phase = .finished ↔ job.remaining = 0
  unstarted : job.phase = .pending → held = []
  elapsed : job.phase ≠ .pending → job.arrival + held.length ≤ now
  past : ∀ time ∈ held, job.arrival ≤ time ∧ time < now
  firstStart_eq : job.firstStart = (if job.phase = .running then held ++ [now] else held).head?
  response_eq : job.response = job.firstStart.map (· - job.arrival)
  completion_eq :
    job.completion = if job.phase = .finished then held.getLast?.map (· + 1) else none
  turnaround_eq : job.turnaround = job.completion.map (· - job.arrival)
  waiting_eq : job.waiting =
    if job.phase = .finished then job.turnaround.map (· - job.service)
    else if fixesWaiting then job.response else none
  served : ∀ time, job.completion = some time → job.arrival + job.service ≤ time
  unbroken : fixesWaiting = true →
    (job.phase = .ready → held = []) ∧
      (job.phase = .running → ∀ start, job.firstStart = some start → start + held.length = now)

namespace Balanced

variable {fixesWaiting : Bool} {now : Nat} {held : List Nat} {job : Job}

theorem ofSpec {id : Nat} {spec : Spec} (positive : 0 < spec.service) :
    Balanced fixesWaiting 0 [] (Job.ofSpec id spec) where
  positive := UInt64.lt_iff_toNat_lt.mp positive
  worked := Nat.zero_add _
  finished_iff := by
    have hasWork : 0 < spec.service.toNat := UInt64.lt_iff_toNat_lt.mp positive
    simp only [Job.ofSpec, reduceCtorEq, false_iff]
    exact Nat.ne_of_gt hasWork
  unstarted := fun _ => rfl
  elapsed := fun arrived => absurd rfl arrived
  past := by simp
  firstStart_eq := rfl
  response_eq := rfl
  completion_eq := rfl
  turnaround_eq := rfl
  waiting_eq := by simp [Job.ofSpec]
  served := by simp [Job.ofSpec]
  unbroken := by simp [Job.ofSpec]

theorem remaining_pos (balanced : Balanced fixesWaiting now held job)
    (unfinished : job.phase ≠ .finished) : 0 < job.remaining :=
  Nat.pos_of_ne_zero fun done => unfinished (balanced.finished_iff.mpr done)

theorem arrive (balanced : Balanced fixesWaiting now held job) (isPending : job.phase = .pending)
    (arrived : job.arrival ≤ now) :
    Balanced fixesWaiting now held { job with phase := .ready } := by
  have nothingHeld := balanced.unstarted isPending
  have hasWork := balanced.remaining_pos (by simp [isPending])
  subst nothingHeld
  exact {
    positive := balanced.positive
    worked := balanced.worked
    finished_iff := by
      simp only [reduceCtorEq, false_iff]
      omega
    unstarted := fun _ => rfl
    elapsed := fun _ => by simpa using arrived
    past := balanced.past
    firstStart_eq := by simpa [isPending] using balanced.firstStart_eq
    response_eq := balanced.response_eq
    completion_eq := by simpa [isPending] using balanced.completion_eq
    turnaround_eq := balanced.turnaround_eq
    waiting_eq := by simpa [isPending] using balanced.waiting_eq
    served := balanced.served
    unbroken := fun _ => ⟨fun _ => rfl, by simp⟩ }

theorem ready_firstStart (balanced : Balanced fixesWaiting now held job)
    (isReady : job.phase = .ready) : job.firstStart = held.head? := by
  simpa [isReady] using balanced.firstStart_eq

theorem startAgain (balanced : Balanced false now held job) (isReady : job.phase = .ready)
    (hasHeld : held ≠ []) : Balanced false now held { job with phase := .running } where
  positive := balanced.positive
  worked := balanced.worked
  finished_iff := by
    have hasWork := balanced.remaining_pos (by simp [isReady])
    simp only [reduceCtorEq, false_iff]
    omega
  unstarted := by simp
  elapsed := fun _ => balanced.elapsed (by simp [isReady])
  past := balanced.past
  firstStart_eq := by
    obtain ⟨first, rest, rfl⟩ := List.exists_cons_of_ne_nil hasHeld
    simp [balanced.ready_firstStart isReady]
  response_eq := balanced.response_eq
  completion_eq := by simpa [isReady] using balanced.completion_eq
  turnaround_eq := balanced.turnaround_eq
  waiting_eq := by simpa [isReady] using balanced.waiting_eq
  served := balanced.served
  unbroken := by simp

theorem startFirst (balanced : Balanced fixesWaiting now [] job) (isReady : job.phase = .ready) :
    Balanced fixesWaiting now []
      { job with
          phase := .running
          firstStart := some now
          response := some (now - job.arrival)
          waiting := if fixesWaiting then some (now - job.arrival) else job.waiting } where
  positive := balanced.positive
  worked := balanced.worked
  finished_iff := by
    have hasWork := balanced.remaining_pos (by simp [isReady])
    simp only [reduceCtorEq, false_iff]
    omega
  unstarted := by simp
  elapsed := fun _ => balanced.elapsed (by simp [isReady])
  past := balanced.past
  firstStart_eq := by simp
  response_eq := by simp
  completion_eq := by simpa [isReady] using balanced.completion_eq
  turnaround_eq := balanced.turnaround_eq
  waiting_eq := by
    cases fixes : fixesWaiting with
    | true => simp
    | false => simpa [isReady, fixes] using balanced.waiting_eq
  served := balanced.served
  unbroken := by simp

theorem not_fixesWaiting (balanced : Balanced fixesWaiting now held job)
    (isReady : job.phase = .ready) (hasHeld : held ≠ []) : fixesWaiting = false := by
  cases fixes : fixesWaiting with
  | false => rfl
  | true => exact absurd ((balanced.unbroken fixes).1 isReady) hasHeld

theorem startBooks (balanced : Balanced fixesWaiting now held job)
    (isReady : job.phase = .ready) :
    ∃ started, Machine.startBooks fixesWaiting now job = .ok started ∧
      Balanced fixesWaiting now held started ∧ started.phase = .running ∧
      started.blank = job.blank := by
  have heldFirst := balanced.ready_firstStart isReady
  cases firstStart : job.firstStart with
  | some start =>
      have hasHeld : held ≠ [] := by
        rintro rfl
        simp [firstStart] at heldFirst
      have slicing := balanced.not_fixesWaiting isReady hasHeld
      subst slicing
      refine ⟨{ job with phase := .running }, ?_, balanced.startAgain isReady hasHeld, rfl, rfl⟩
      simp [Machine.startBooks, firstStart, pure, Except.pure]
  | none =>
      have nothingHeld : held = [] := List.head?_eq_none_iff.mp (heldFirst ▸ firstStart)
      subst nothingHeld
      have inTime : job.arrival ≤ now := balanced.elapsed (by simp [isReady])
      refine ⟨_, ?_, balanced.startFirst isReady, rfl, rfl⟩
      simp [Machine.startBooks, firstStart, ensure, inTime, bind, Except.bind, pure, Except.pure]

theorem release (balanced : Balanced false now held job) (isRunning : job.phase = .running)
    (hasHeld : held ≠ []) : Balanced false now held { job with phase := .ready } where
  positive := balanced.positive
  worked := balanced.worked
  finished_iff := by
    have hasWork := balanced.remaining_pos (by simp [isRunning])
    simp only [reduceCtorEq, false_iff]
    omega
  unstarted := by simp
  elapsed := fun _ => balanced.elapsed (by simp [isRunning])
  past := balanced.past
  firstStart_eq := by
    obtain ⟨first, rest, rfl⟩ := List.exists_cons_of_ne_nil hasHeld
    simpa [isRunning] using balanced.firstStart_eq
  response_eq := balanced.response_eq
  completion_eq := by simpa [isRunning] using balanced.completion_eq
  turnaround_eq := balanced.turnaround_eq
  waiting_eq := by simpa [isRunning] using balanced.waiting_eq
  served := balanced.served
  unbroken := by simp

theorem wait (balanced : Balanced fixesWaiting now held job) (offCpu : job.phase ≠ .running)
    {later : Nat} (passes : now ≤ later) : Balanced fixesWaiting later held job where
  positive := balanced.positive
  worked := balanced.worked
  finished_iff := balanced.finished_iff
  unstarted := balanced.unstarted
  elapsed := fun arrived => Nat.le_trans (balanced.elapsed arrived) passes
  past := fun time membership =>
    ⟨(balanced.past time membership).1,
      Nat.lt_of_lt_of_le (balanced.past time membership).2 passes⟩
  firstStart_eq := by simpa [offCpu] using balanced.firstStart_eq
  response_eq := balanced.response_eq
  completion_eq := balanced.completion_eq
  turnaround_eq := balanced.turnaround_eq
  waiting_eq := balanced.waiting_eq
  served := balanced.served
  unbroken := fun fixes => ⟨(balanced.unbroken fixes).1, fun isRunning => absurd isRunning offCpu⟩

theorem age (balanced : Balanced fixesWaiting now held job) (effectivePriority : Nat) :
    Balanced fixesWaiting now held { job with effectivePriority := effectivePriority } :=
  ⟨balanced.positive, balanced.worked, balanced.finished_iff, balanced.unstarted,
    balanced.elapsed, balanced.past, balanced.firstStart_eq, balanced.response_eq,
    balanced.completion_eq, balanced.turnaround_eq, balanced.waiting_eq, balanced.served,
    balanced.unbroken⟩

theorem past_succ (balanced : Balanced fixesWaiting now held job)
    (isRunning : job.phase = .running) :
    ∀ time ∈ held ++ [now], job.arrival ≤ time ∧ time < now + 1 := by
  have elapsed := balanced.elapsed (by simp [isRunning])
  intro time membership
  rcases List.mem_append.mp membership with before | current
  · have inPast := balanced.past time before
    omega
  · have isNow := List.mem_singleton.mp current
    omega

theorem work (balanced : Balanced fixesWaiting now held job) (isRunning : job.phase = .running)
    (leaves : job.remaining - 1 ≠ 0) :
    Balanced fixesWaiting (now + 1) (held ++ [now])
      { job with remaining := job.remaining - 1 } where
  positive := balanced.positive
  worked := by
    have worked := balanced.worked
    simp only [List.length_append, List.length_singleton]
    omega
  finished_iff := by simp [isRunning, leaves]
  unstarted := by simp [isRunning]
  elapsed := fun _ => by
    have elapsed := balanced.elapsed (by simp [isRunning])
    simp only [List.length_append, List.length_singleton]
    omega
  past := balanced.past_succ isRunning
  firstStart_eq := by
    simpa [isRunning] using balanced.firstStart_eq
  response_eq := balanced.response_eq
  completion_eq := by simpa [isRunning] using balanced.completion_eq
  turnaround_eq := balanced.turnaround_eq
  waiting_eq := by simpa [isRunning] using balanced.waiting_eq
  served := balanced.served
  unbroken := fun fixes => by
    refine ⟨by simp [isRunning], fun _ start started => ?_⟩
    have unbroken := (balanced.unbroken fixes).2 isRunning start started
    simp only [List.length_append, List.length_singleton]
    omega

/-- The waiting time fixed at the first start agrees with the derived one. -/
theorem waiting_agrees (balanced : Balanced fixesWaiting now held job)
    (isRunning : job.phase = .running) (lastTick : job.remaining = 1) :
    job.waiting = none ∨ job.waiting = some (now + 1 - job.arrival - job.service) := by
  have waitingEq := balanced.waiting_eq
  have worked := balanced.worked
  cases fixes : fixesWaiting with
  | false => exact .inl (by simpa [isRunning, fixes] using waitingEq)
  | true =>
      obtain ⟨start, isStart⟩ : ∃ start, job.firstStart = some start := by
        simp [balanced.firstStart_eq, isRunning]
      have unbroken := (balanced.unbroken fixes).2 isRunning start isStart
      right
      simp only [isRunning, reduceCtorEq, ↓reduceIte, fixes, balanced.response_eq, isStart,
        Option.map_some] at waitingEq
      rw [waitingEq, Option.some.injEq]
      omega

theorem completeBooks (balanced : Balanced fixesWaiting now held job)
    (isRunning : job.phase = .running) (lastTick : job.remaining = 1) :
    ∃ completed,
      Machine.completeBooks (now + 1) { job with remaining := job.remaining - 1 } =
        .ok completed ∧
      Balanced fixesWaiting (now + 1) (held ++ [now]) completed ∧
      completed.phase = .finished ∧ completed.blank = job.blank := by
  have worked := balanced.worked
  have elapsed := balanced.elapsed (by simp [isRunning])
  have inTime : job.arrival ≤ now + 1 := by omega
  have longEnough : job.service ≤ now + 1 - job.arrival := by omega
  have agrees := balanced.waiting_agrees isRunning lastTick
  refine ⟨{
    job with
      remaining := job.remaining - 1
      waiting := some (now + 1 - job.arrival - job.service)
      completion := some (now + 1)
      turnaround := some (now + 1 - job.arrival)
      phase := .finished }, ?_, ?_, rfl, rfl⟩
  · simp [Machine.completeBooks, ensure, isRunning, inTime, longEnough, agrees, bind,
      Except.bind, pure, Except.pure]
  · exact {
      positive := balanced.positive
      worked := by
        simp only [List.length_append, List.length_singleton]
        omega
      finished_iff := by simp [lastTick]
      unstarted := by simp
      elapsed := fun _ => by
        simp only [List.length_append, List.length_singleton]
        omega
      past := balanced.past_succ isRunning
      firstStart_eq := by simpa [isRunning] using balanced.firstStart_eq
      response_eq := balanced.response_eq
      completion_eq := by simp
      turnaround_eq := by simp
      waiting_eq := by simp
      served := by
        intro time isCompletion
        cases isCompletion
        simp only
        omega
      unbroken := by simp }

theorem exists_completion (balanced : Balanced fixesWaiting now held job)
    (isFinished : job.phase = .finished) :
    ∃ last, held.getLast? = some last ∧ last < now ∧ job.completion = some (last + 1) := by
  have hasHeld : held ≠ [] := by
    rintro rfl
    have worked := balanced.worked
    have done := balanced.finished_iff.mp isFinished
    have positive := balanced.positive
    simp only [List.length_nil] at worked
    omega
  refine ⟨held.getLast hasHeld, List.getLast?_eq_some_getLast hasHeld, ?_, ?_⟩
  · exact (balanced.past _ (List.getLast_mem hasHeld)).2
  · simp [balanced.completion_eq, isFinished, List.getLast?_eq_some_getLast hasHeld]

theorem finished_timing (balanced : Balanced fixesWaiting now held job)
    (isFinished : job.phase = .finished) :
    ∃ time, job.completion = some time ∧ time ≤ now ∧ job.arrival + job.service ≤ time ∧
      job.turnaround = some (time - job.arrival) ∧
      job.waiting = some (time - job.arrival - job.service) := by
  obtain ⟨last, _, inPast, completion⟩ := balanced.exists_completion isFinished
  have turnaround : job.turnaround = some (last + 1 - job.arrival) := by
    simp [balanced.turnaround_eq, completion]
  refine ⟨last + 1, completion, inPast, balanced.served _ completion, turnaround, ?_⟩
  simp [balanced.waiting_eq, isFinished, turnaround]

theorem audit (balanced : Balanced fixesWaiting now held job) (room : now < wordSize) :
    job.audit = .ok () := by
  by_cases isFinished : job.phase = .finished
  · obtain ⟨time, _, inPast, served, turnaround, waiting⟩ := balanced.finished_timing isFinished
    have done := balanced.finished_iff.mp isFinished
    have total : time - job.arrival - job.service + job.service = time - job.arrival := by omega
    have inWord : time - job.arrival < wordSize := by omega
    simp [Job.audit, isFinished, done, waiting, turnaround, total, inWord, ensure, bind,
      Except.bind]
  · simp [Job.audit, isFinished, ensure, balanced.remaining_pos isFinished]

end Balanced

end CpuScheduling.Job
