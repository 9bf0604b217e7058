import CpuScheduling.Proofs.Machine.Effects

/-!
The operations of a machine, asked for in any order, also in one that no policy knows: a job
may get the CPU before it has been admitted or after it has completed, and one that loses the
CPU need not be queued again.  Each operation that succeeds makes one entry in the books of one
job, or it leaves the jobs alone.
-/

namespace CpuScheduling.Machine

/-- What may be asked of a machine.  That a slice is used up is for the policy to mark; no slice
expires without the mark. -/
inductive Operation where
  | arrive (id : Nat)
  | enqueue (id : Nat) (rank : Rank)
  | pop
  | start (id : Nat)
  | preempt (displacing : Nat)
  | markExpired
  | expireSlice
  | recordTrace
  | runCurrent
  | idleUntil (time : UInt64)
  | advance (ticks : UInt64)
  | drainEvents
  deriving DecidableEq

/-- The machine after an operation, whatever the operation answers. -/
def perform (machine : Machine) : Operation → Checked Machine
  | .arrive id => machine.arrive id
  | .enqueue id rank => machine.enqueue id rank
  | .pop => .ok machine.pop.2
  | .start id => machine.start id
  | .preempt displacing => (·.2) <$> machine.preempt displacing
  | .markExpired => .ok machine.markExpired
  | .expireSlice => (·.2) <$> machine.expireSlice
  | .recordTrace => .ok machine.recordTrace
  | .runCurrent => (·.2) <$> machine.runCurrent
  | .idleUntil time => machine.idleUntil time.toNat
  | .advance ticks => .ok (machine.advance ticks.toNat)
  | .drainEvents => .ok machine.drainEvents.2

def performAll (machine : Machine) (operations : List Operation) : Checked Machine :=
  operations.foldlM perform machine

namespace Operation

variable {machine : Machine} {operation : Operation} {id : Nat}

/-- The one job, if any, whose books an operation writes. -/
def subject? (machine : Machine) : Operation → Option Nat
  | arrive id | start id => some id
  | preempt _ | runCurrent => machine.cpu.current
  | expireSlice => if machine.cpu.sliceExpired then machine.cpu.current else none
  | _ => none

def spentOn (machine : Machine) (id : Nat) : Operation → Nat
  | runCurrent => if machine.cpu.current = some id then 1 else 0
  | _ => 0

theorem spentOn_of_ne (other : operation.subject? machine ≠ some id) :
    operation.spentOn machine id = 0 := by
  cases operation with
  | runCurrent => exact if_neg other
  | _ => rfl

end Operation

/-- The entries that are made in the books of a job, with the ticks of work that each one
stands for. -/
inductive Booking (fixesWaiting : Bool) (now : Nat) : Nat → Job → Job → Prop where
  | readied (job : Job) : Booking fixesWaiting now 0 job { job with phase := .ready }
  | started {job started : Job} (booked : startBooks fixesWaiting now job = .ok started) :
      Booking fixesWaiting now 0 job started
  | worked {job : Job} (left : 0 < job.remaining) :
      Booking fixesWaiting now 1 job { job with remaining := job.remaining - 1 }
  | completed {job completed : Job} (lastTick : job.remaining = 1)
      (booked : completeBooks (now + 1) { job with remaining := 0 } = .ok completed) :
      Booking fixesWaiting now 1 job completed

theorem Booking.remaining {fixesWaiting : Bool} {now ticks : Nat} {old job : Job}
    (booking : Booking fixesWaiting now ticks old job) :
    job.remaining + ticks = old.remaining := by
  cases booking with
  | readied => rfl
  | started booked =>
      obtain ⟨_, _, _, rfl⟩ := startBooks_ok booked
      rfl
  | worked left => exact Nat.sub_add_cancel left
  | completed lastTick booked =>
      obtain ⟨_, _, rfl⟩ := completeBooks_ok booked
      exact lastTick.symm

theorem job?_of_jobs_eq {machine other : Machine} (same : other.jobs = machine.jobs) (id : Nat) :
    other.job? id = machine.job? id := by
  cases id with
  | zero => rfl
  | succ index => rw [job?, job?, same]

section Perform

variable {machine next : Machine} {operation : Operation}
  (performed : machine.perform operation = .ok next)

include performed

/-- An operation writes into the books of its subject, or it leaves the jobs alone. -/
theorem perform_cases :
    (operation.subject? machine = none ∧ next.jobs = machine.jobs) ∨
      ∃ id old job, operation.subject? machine = some id ∧ machine.job? id = some old ∧
        Booking machine.fixesWaiting machine.now (operation.spentOn machine id) old job ∧
        next.jobs = (machine.put id job).jobs := by
  cases operation with
  | arrive id =>
      obtain ⟨old, present, _, rfl⟩ := arrive_ok performed
      exact .inr ⟨id, old, _, rfl, present, .readied old, rfl⟩
  | enqueue id rank =>
      obtain ⟨_, _, _, _, _, _, rfl⟩ := enqueue_ok performed
      exact .inl ⟨rfl, rfl⟩
  | pop | markExpired | advance | drainEvents =>
      cases performed
      exact .inl ⟨rfl, rfl⟩
  | start id =>
      obtain ⟨old, started, _, _, present, booked, rfl⟩ := start_ok performed
      exact .inr ⟨id, old, started, rfl, present, .started booked, rfl⟩
  | preempt displacing =>
      obtain ⟨⟨displaced, left⟩, preempts, rfl⟩ := map_eq_ok_iff.mp performed
      rcases preempt_ok preempts with ⟨idle, _, rfl⟩ | ⟨id, old, current, _, present, rfl⟩
      · exact .inl ⟨idle, rfl⟩
      · exact .inr ⟨id, old, _, current, present, .readied old, rfl⟩
  | expireSlice =>
      obtain ⟨⟨expired, left⟩, expires, rfl⟩ := map_eq_ok_iff.mp performed
      rcases expireSlice_ok expires with
        ⟨idle | unmarked, _, rfl⟩ | ⟨id, old, current, marked, _, present, rfl⟩
      · exact .inl ⟨by simp [Operation.subject?, idle], rfl⟩
      · exact .inl ⟨by simp [Operation.subject?, unmarked], rfl⟩
      · have subject : Operation.expireSlice.subject? machine = some id :=
          (if_pos marked).trans current
        exact .inr ⟨id, old, _, subject, present, .readied old, rfl⟩
  | recordTrace =>
      cases performed
      refine .inl ⟨rfl, ?_⟩
      cases current : machine.cpu.current with
      | none =>
          rw [recordTrace_idle current]
          rfl
      | some id => rw [recordTrace_busy current]
  | runCurrent =>
      obtain ⟨⟨work, worked⟩, works, rfl⟩ := map_eq_ok_iff.mp performed
      rcases runCurrent_ok works with ⟨idle, _, rfl⟩ | ⟨id, old, current, present, rest⟩
      · exact .inl ⟨idle, rfl⟩
      · have oneTick : Operation.runCurrent.spentOn machine id = 1 := if_pos current
        rcases rest with ⟨_, left, _, rfl⟩ | ⟨lastTick, _, completed, booked, rfl⟩
        · exact .inr ⟨id, old, _, current, present, by rw [oneTick]; exact .worked left, rfl⟩
        · exact .inr ⟨id, old, completed, current, present,
            by rw [oneTick]; exact .completed lastTick booked, rfl⟩
  | idleUntil time =>
      by_cases come : time.toNat ≤ machine.now
      · rw [perform, idleUntil_come come] at performed
        cases performed
        exact .inl ⟨rfl, rfl⟩
      · simp only [perform, idleUntil, come, ↓reduceIte, bind_eq_ok_iff] at performed
        obtain ⟨_, _, isNext⟩ := performed
        cases isNext
        exact .inl ⟨rfl, rfl⟩

theorem length_jobs_of_perform : next.jobs.length = machine.jobs.length := by
  rcases perform_cases performed with ⟨_, same⟩ | ⟨_, _, _, _, _, _, same⟩
  · rw [same]
  · rw [same, length_jobs_put]

theorem job?_of_perform {id : Nat} (other : operation.subject? machine ≠ some id) :
    next.job? id = machine.job? id := by
  rcases perform_cases performed with ⟨_, same⟩ | ⟨written, _, job, subject, present, _, same⟩
  · exact job?_of_jobs_eq same id
  · rw [job?_of_jobs_eq same, job?_put present, if_neg]
    rintro rfl
    exact other subject

theorem exists_booking {id : Nat} (subject : operation.subject? machine = some id) :
    ∃ old job, machine.job? id = some old ∧ next.job? id = some job ∧
      Booking machine.fixesWaiting machine.now (operation.spentOn machine id) old job := by
  rcases perform_cases performed with ⟨nobody, _⟩ | ⟨other, old, job, named, present, booking, same⟩
  · cases nobody.symm.trans subject
  · cases named.symm.trans subject
    refine ⟨old, job, present, ?_, booking⟩
    rw [job?_of_jobs_eq same, job?_put_self present]

end Perform

end CpuScheduling.Machine
