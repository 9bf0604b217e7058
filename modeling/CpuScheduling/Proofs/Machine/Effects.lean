import CpuScheduling.Proofs.Machine.Work

/-!
What the operations of a machine do when they succeed: for each one, the machine that it
leaves behind.
-/

namespace CpuScheduling.Machine

variable {machine next : Machine} {id : Nat}

theorem job_eq_ok_iff {job : Job} : machine.job id = .ok job ↔ machine.job? id = some job := by
  unfold Machine.job
  split <;> simp_all

theorem put_put (machine : Machine) (id : Nat) (first second : Job) :
    (machine.put id first).put id second = machine.put id second := by
  simp [put]

theorem put_self {job : Job} (present : machine.job? id = some job) :
    machine.put id job = machine := by
  cases id with
  | zero => simp [job?] at present
  | succ index =>
      obtain ⟨inTable, isJob⟩ := List.getElem?_eq_some_iff.mp present
      simp [put, ← isJob]

theorem arrive_ok (arrives : machine.arrive id = .ok next) :
    ∃ job, machine.job? id = some job ∧ job.phase = .pending ∧
      next = (machine.put id { job with phase := .ready }).emit (.arrival id) := by
  simp only [arrive, bind_eq_ok_iff, ensure_eq_ok_iff, job_eq_ok_iff] at arrives
  obtain ⟨job, present, _, isPending, isNext⟩ := arrives
  cases isNext
  exact ⟨job, present, isPending, rfl⟩

theorem enqueue_ok {rank : Rank} (enters : machine.enqueue id rank = .ok next) :
    ∃ job ready, machine.job? id = some job ∧ job.phase = .ready ∧ id ∉ machine.ready.ids ∧
      machine.ready.push id rank = .ok ready ∧ next = { machine with ready := ready } := by
  simp only [enqueue, bind_eq_ok_iff, ensure_eq_ok_iff, job_eq_ok_iff,
    ReadyQueue.mem_members] at enters
  obtain ⟨_, absent, job, present, _, isReady, ready, entered, isNext⟩ := enters
  cases isNext
  exact ⟨job, ready, present, isReady, absent, entered, rfl⟩

theorem startBooks_cases {fixesWaiting : Bool} {now : Nat} {job started : Job}
    (booked : startBooks fixesWaiting now job = .ok started) :
    (job.firstStart ≠ none ∧ started = { job with phase := .running }) ∨
      (job.firstStart = none ∧ started =
        { job with
          phase := .running
          firstStart := some now
          response := some (now - job.arrival)
          waiting := if fixesWaiting then some (now - job.arrival) else job.waiting }) := by
  unfold startBooks at booked
  cases firstStart : job.firstStart with
  | some start =>
      rw [firstStart] at booked
      cases booked
      exact .inl ⟨nofun, rfl⟩
  | none =>
      rw [firstStart] at booked
      obtain ⟨_, _, isStarted⟩ := bind_eq_ok_iff.mp booked
      cases isStarted
      exact .inr ⟨rfl, rfl⟩

theorem startBooks_ok {fixesWaiting : Bool} {now : Nat} {job started : Job}
    (booked : startBooks fixesWaiting now job = .ok started) :
    ∃ firstStart waiting response, started =
      { job with
        phase := .running, firstStart := firstStart, waiting := waiting, response := response } := by
  rcases startBooks_cases booked with ⟨_, rfl⟩ | ⟨_, rfl⟩
  · exact ⟨_, _, _, rfl⟩
  · exact ⟨_, _, _, rfl⟩

def switchesTo (machine : Machine) (id : Nat) : Bool :=
  machine.cpu.last.isSome && machine.cpu.last != some id

def given (machine : Machine) (id : Nat) (started : Job) : Machine :=
  Machine.emit
    { machine.put id started with
      switches := machine.switches + if machine.switchesTo id then 1 else 0
      cpu := { current := some id, last := some id } }
    (.dispatch id machine.cpu.last (machine.switchesTo id))

theorem start_ok (starts : machine.start id = .ok next) :
    ∃ job started, machine.cpu.current = none ∧ id ∉ machine.ready.ids ∧
      machine.job? id = some job ∧
      startBooks machine.fixesWaiting machine.now job = .ok started ∧
      next = machine.given id started := by
  simp only [Machine.start, bind_eq_ok_iff, ensure_eq_ok_iff, job_eq_ok_iff,
    ReadyQueue.mem_members] at starts
  obtain ⟨_, idle, _, absent, job, present, started, booked, rest⟩ := starts
  refine ⟨job, started, idle, absent, present, booked, ?_⟩
  split at rest
  next switched =>
    obtain ⟨switches, counts, isNext⟩ := bind_eq_ok_iff.mp rest
    cases isNext
    rw [(increment_eq_ok_iff.mp counts).2, given, switchesTo, if_pos switched]
  next stays =>
    obtain ⟨switches, counts, isNext⟩ := bind_eq_ok_iff.mp rest
    cases isNext
    cases counts
    rw [given, switchesTo, if_neg stays]
    rfl

def released (machine : Machine) (id : Nat) (job : Job) (event : Event) : Machine :=
  Machine.emit
    { machine.put id { job with phase := .ready } with cpu := { last := machine.cpu.last } } event

theorem preempt_ok {displacing : Nat} {displaced : Option Nat}
    (preempts : machine.preempt displacing = .ok (displaced, next)) :
    (machine.cpu.current = none ∧ displaced = none ∧ next = machine) ∨
      ∃ id job, machine.cpu.current = some id ∧ displaced = some id ∧
        machine.job? id = some job ∧
        next = machine.released id job (.preempt id displacing) := by
  unfold preempt at preempts
  cases current : machine.cpu.current with
  | none =>
      rw [current] at preempts
      cases preempts
      exact .inl ⟨rfl, rfl, rfl⟩
  | some id =>
      simp only [current, release, bind_eq_ok_iff, job_eq_ok_iff] at preempts
      obtain ⟨_, ⟨job, present, isReleased⟩, isNext⟩ := preempts
      cases isReleased
      cases isNext
      exact .inr ⟨id, job, rfl, rfl, present, rfl⟩

theorem expireSlice_ok {expired : Option Nat}
    (expires : machine.expireSlice = .ok (expired, next)) :
    ((machine.cpu.current = none ∨ machine.cpu.sliceExpired = false) ∧
        expired = none ∧ next = machine) ∨
      ∃ id job, machine.cpu.current = some id ∧ machine.cpu.sliceExpired = true ∧
        expired = some id ∧ machine.job? id = some job ∧
        next = machine.released id job (.sliceExpired id) := by
  unfold expireSlice at expires
  cases used : machine.cpu.sliceExpired with
  | false =>
      simp only [used, Bool.false_eq_true, ↓reduceIte] at expires
      cases expires
      exact .inl ⟨.inr rfl, rfl, rfl⟩
  | true =>
      cases current : machine.cpu.current with
      | none =>
          simp only [used, current, ↓reduceIte] at expires
          cases expires
          exact .inl ⟨.inl rfl, rfl, rfl⟩
      | some id =>
          simp only [used, current, ↓reduceIte, release, bind_eq_ok_iff, job_eq_ok_iff] at expires
          obtain ⟨_, ⟨job, present, isReleased⟩, isNext⟩ := expires
          cases isReleased
          cases isNext
          exact .inr ⟨id, job, rfl, rfl, rfl, present, rfl⟩

/-- The CPU rests, or its occupant works on, or it completes. -/
theorem runCurrent_ok {work : Work} (works : machine.runCurrent = .ok (work, next)) :
    (machine.cpu.current = none ∧ work = .idle ∧ next = machine) ∨
      ∃ id job, machine.cpu.current = some id ∧ machine.job? id = some job ∧
        ((job.remaining ≠ 1 ∧ 0 < job.remaining ∧ work = .ran id ∧
            next =
              { machine.put id { job with remaining := job.remaining - 1 } with
                cpu := { machine.cpu with sliceUsed := machine.cpu.sliceUsed + 1 } }) ∨
          (job.remaining = 1 ∧ work = .completed id ∧ ∃ completed,
            completeBooks (machine.now + 1) { job with remaining := 0 } = .ok completed ∧
            next = Machine.emit
              { machine.put id completed with
                finished := machine.finished + 1
                cpu := { last := machine.cpu.last } } (.complete id (machine.now + 1)))) := by
  cases current : machine.cpu.current with
  | none =>
      rw [runCurrent_idle current] at works
      cases works
      exact .inl ⟨rfl, rfl, rfl⟩
  | some id =>
      rw [runCurrent] at works
      simp only [current, bind_eq_ok_iff, increment_eq_ok_iff, ensure_eq_ok_iff,
        job_eq_ok_iff] at works
      obtain ⟨_, ⟨_, rfl⟩, job, present, _, hasWork, rest⟩ := works
      refine .inr ⟨id, job, rfl, present, ?_⟩
      split at rest
      next lastTick =>
        simp only [bind_eq_ok_iff, increment_eq_ok_iff] at rest
        obtain ⟨_, ⟨_, rfl⟩, completed, booked, _, ⟨_, rfl⟩, isNext⟩ := rest
        cases isNext
        rw [lastTick] at booked
        exact .inr ⟨by omega, rfl, completed, booked, rfl⟩
      next leaves =>
        cases rest
        exact .inl ⟨by omega, hasWork, rfl, rfl⟩

def recorded (machine : Machine) : Machine :=
  { machine with trace := machine.trace.push ⟨machine.now, machine.cpu.current⟩ }

theorem work_ok {work : Work} (works : machine.recordTrace.runCurrent = .ok (work, next)) :
    (machine.cpu.current = none ∧ work = .idle ∧
        next = machine.recorded.emit (.cpuIdle 1)) ∨
      ∃ id job, machine.cpu.current = some id ∧ machine.job? id = some job ∧
        ((job.remaining ≠ 1 ∧ 0 < job.remaining ∧ work = .ran id ∧
            next =
              { machine.recorded.put id { job with remaining := job.remaining - 1 } with
                cpu := { machine.cpu with sliceUsed := machine.cpu.sliceUsed + 1 } }) ∨
          (job.remaining = 1 ∧ work = .completed id ∧ ∃ completed,
            completeBooks (machine.now + 1) { job with remaining := 0 } = .ok completed ∧
            next = Machine.emit
              { machine.recorded.put id completed with
                finished := machine.finished + 1
                cpu := { last := machine.cpu.last } } (.complete id (machine.now + 1)))) := by
  cases current : machine.cpu.current with
  | none =>
      have idle : machine.recordTrace.cpu.current = none := by simp [recordTrace, current, emit]
      rw [runCurrent_idle idle] at works
      cases works
      exact .inl ⟨rfl, rfl, by simp [recordTrace_idle current, recorded, current]⟩
  | some id =>
      have isRecorded : machine.recordTrace = machine.recorded := by
        rw [recordTrace_busy current, recorded, current]
      rw [isRecorded] at works
      rcases runCurrent_ok works with ⟨idle, _⟩ | ⟨other, job, busy, present, rest⟩
      · cases current.symm.trans idle
      · cases current.symm.trans busy
        exact .inr ⟨id, job, rfl, present, rest⟩

theorem completeBooks_ok {time : Nat} {job completed : Job}
    (booked : completeBooks time job = .ok completed) :
    ∃ waiting turnaround, completed =
      { job with
        phase := .finished
        completion := some time
        waiting := waiting
        turnaround := turnaround } := by
  simp only [completeBooks, bind_eq_ok_iff, ensure_eq_ok_iff] at booked
  obtain ⟨_, _, _, _, _, _, _, _, isCompleted⟩ := booked
  cases isCompleted
  exact ⟨_, _, rfl⟩

theorem completeBooks_agrees {time : Nat} {job completed : Job}
    (booked : completeBooks time job = .ok completed) :
    job.phase = .running ∧ (job.waiting = none ∨ job.waiting = completed.waiting) := by
  simp only [completeBooks, bind_eq_ok_iff, ensure_eq_ok_iff] at booked
  obtain ⟨_, isRunning, _, _, _, _, _, agrees, isCompleted⟩ := booked
  cases isCompleted
  exact ⟨isRunning, agrees⟩

end CpuScheduling.Machine
