import CpuScheduling.Proofs.Machine.AnyOrder

/-!
The books of a job are written once: in whatever order the operations of a machine are asked
for, as long as no check breaks, a time that is set stays what it is.

Apart from the waiting time no check looks at what is set already; a completion is booked
whether or not one has been booked before.  What protects the times is `Job.Staged`: until its
first start a job has neither response nor waiting time and does not run, and while it has work
left it has neither completion nor turnaround time.
-/

namespace CpuScheduling

def StaysSet (before after : Option Nat) : Prop :=
  before ≠ none → after = before

namespace StaysSet

theorem refl (time : Option Nat) : StaysSet time time := fun _ => rfl

theorem of_eq_none {before : Option Nat} (unset : before = none) (after : Option Nat) :
    StaysSet before after :=
  fun isSet => absurd unset isSet

theorem trans {before middle after : Option Nat} (early : StaysSet before middle)
    (late : StaysSet middle after) : StaysSet before after := by
  intro isSet
  have same := early isSet
  exact (late (same ▸ isSet)).trans same

end StaysSet

namespace Job

/-- What may become of a job: its phase changes, its work grows less, and times that are not
set yet are set. -/
structure Becomes (before after : Job) : Prop where
  id : after.id = before.id
  arrival : after.arrival = before.arrival
  service : after.service = before.service
  priority : after.priority = before.priority
  effectivePriority : after.effectivePriority = before.effectivePriority
  remaining : after.remaining ≤ before.remaining
  firstStart : StaysSet before.firstStart after.firstStart
  response : StaysSet before.response after.response
  waiting : StaysSet before.waiting after.waiting
  completion : StaysSet before.completion after.completion
  turnaround : StaysSet before.turnaround after.turnaround

theorem Becomes.refl (job : Job) : job.Becomes job :=
  ⟨rfl, rfl, rfl, rfl, rfl, Nat.le_refl _, .refl _, .refl _, .refl _, .refl _, .refl _⟩

theorem Becomes.trans {before middle after : Job} (early : before.Becomes middle)
    (late : middle.Becomes after) : before.Becomes after where
  id := late.id.trans early.id
  arrival := late.arrival.trans early.arrival
  service := late.service.trans early.service
  priority := late.priority.trans early.priority
  effectivePriority := late.effectivePriority.trans early.effectivePriority
  remaining := Nat.le_trans late.remaining early.remaining
  firstStart := early.firstStart.trans late.firstStart
  response := early.response.trans late.response
  waiting := early.waiting.trans late.waiting
  completion := early.completion.trans late.completion
  turnaround := early.turnaround.trans late.turnaround

structure Staged (job : Job) : Prop where
  unstarted : job.firstStart = none →
    job.phase ≠ .running ∧ job.response = none ∧ job.waiting = none
  unfinished : 0 < job.remaining → job.completion = none ∧ job.turnaround = none

theorem staged_ofSpec (id : Nat) (spec : Spec) : (ofSpec id spec).Staged where
  unstarted _ := ⟨nofun, rfl, rfl⟩
  unfinished _ := ⟨rfl, rfl⟩

end Job

namespace Machine

namespace Booking

variable {fixesWaiting : Bool} {now ticks : Nat} {old job : Job}

theorem becomes (booking : Booking fixesWaiting now ticks old job) (staged : old.Staged) :
    old.Becomes job := by
  cases booking with
  | readied => exact { Job.Becomes.refl old with }
  | started booked =>
      rcases startBooks_cases booked with ⟨_, rfl⟩ | ⟨unstarted, rfl⟩
      · exact { Job.Becomes.refl old with }
      · obtain ⟨_, response, waiting⟩ := staged.unstarted unstarted
        exact { Job.Becomes.refl old with
          firstStart := .of_eq_none unstarted _
          response := .of_eq_none response _
          waiting := .of_eq_none waiting _ }
  | worked left => exact { Job.Becomes.refl old with remaining := Nat.sub_le _ _ }
  | completed lastTick booked =>
      obtain ⟨completion, turnaround⟩ := staged.unfinished (by omega)
      have agrees := (completeBooks_agrees booked).2
      obtain ⟨_, _, rfl⟩ := completeBooks_ok booked
      exact { Job.Becomes.refl old with
        remaining := Nat.zero_le _
        waiting := fun isSet => (agrees.resolve_left isSet).symm
        completion := .of_eq_none completion _
        turnaround := .of_eq_none turnaround _ }

theorem staged (booking : Booking fixesWaiting now ticks old job) (staged : old.Staged) :
    job.Staged := by
  cases booking with
  | readied => exact ⟨fun unstarted => ⟨nofun, (staged.unstarted unstarted).2⟩, staged.unfinished⟩
  | started booked =>
      rcases startBooks_cases booked with ⟨begun, rfl⟩ | ⟨_, rfl⟩
      · exact ⟨fun unstarted => absurd unstarted begun, staged.unfinished⟩
      · exact ⟨nofun, staged.unfinished⟩
  | worked left => exact ⟨staged.unstarted, fun _ => staged.unfinished left⟩
  | completed lastTick booked =>
      have isRunning := (completeBooks_agrees booked).1
      obtain ⟨_, _, rfl⟩ := completeBooks_ok booked
      exact ⟨fun unstarted => absurd isRunning (staged.unstarted unstarted).1, nofun⟩

end Booking

def Becomes (before after : Machine) : Prop :=
  ∀ id old, before.job? id = some old → ∃ job, after.job? id = some job ∧ old.Becomes job

theorem Becomes.refl (machine : Machine) : machine.Becomes machine :=
  fun _ old present => ⟨old, present, .refl old⟩

theorem Becomes.trans {before middle after : Machine} (early : before.Becomes middle)
    (late : middle.Becomes after) : before.Becomes after := by
  intro id old present
  obtain ⟨between, isBetween, first⟩ := early id old present
  obtain ⟨job, isJob, second⟩ := late id between isBetween
  exact ⟨job, isJob, first.trans second⟩

/-- All that an operation does to the jobs: at most one of them, its subject, is another one
afterwards, and work is spent on nobody but the job on the CPU. -/
structure Performed (operation : Operation) (before after : Machine) : Prop where
  length : after.jobs.length = before.jobs.length
  others : ∀ id, operation.subject? before ≠ some id → after.job? id = before.job? id
  jobs : ∀ id old, before.job? id = some old → ∃ job, after.job? id = some job ∧
    old.Becomes job ∧ job.remaining + operation.spentOn before id = old.remaining

theorem Performed.becomes {operation : Operation} {before after : Machine}
    (performed : Performed operation before after) : before.Becomes after := by
  intro id old present
  obtain ⟨job, isJob, becomes, _⟩ := performed.jobs id old present
  exact ⟨job, isJob, becomes⟩

def Staged (machine : Machine) : Prop :=
  ∀ job ∈ machine.jobs, job.Staged

theorem staged_ofWorkload (workload : List Spec) (ready : ReadyQueue) (fixesWaiting : Bool) :
    (ofWorkload workload ready fixesWaiting).Staged := by
  intro job member
  obtain ⟨index, spec, _, rfl⟩ := Job.mem_ofWorkload.mp member
  exact Job.staged_ofSpec (index + 1) spec

namespace Staged

variable {machine next : Machine} (staged : machine.Staged)

include staged

theorem perform {operation : Operation} (performs : machine.perform operation = .ok next) :
    next.Staged := by
  intro job member
  rcases perform_cases performs with ⟨_, same⟩ | ⟨id, old, written, _, present, booking, same⟩
  · exact staged job (same ▸ member)
  · rw [same] at member
    rcases List.mem_or_eq_of_mem_set member with before | rfl
    · exact staged job before
    · exact booking.staged (staged old (mem_jobs_of_job? present))

theorem performed {operation : Operation} (performs : machine.perform operation = .ok next) :
    Performed operation machine next where
  length := length_jobs_of_perform performs
  others _ other := job?_of_perform performs other
  jobs id old present := by
    by_cases subject : operation.subject? machine = some id
    · obtain ⟨before, job, isBefore, isJob, booking⟩ := exists_booking performs subject
      cases present.symm.trans isBefore
      have becomes := booking.becomes (staged old (mem_jobs_of_job? present))
      exact ⟨job, isJob, becomes, booking.remaining⟩
    · refine ⟨old, (job?_of_perform performs subject).trans present, .refl old, ?_⟩
      rw [Operation.spentOn_of_ne subject, Nat.add_zero]

/-- What one operation keeps is kept by any number of them. -/
theorem performAll {operations : List Operation}
    (performs : machine.performAll operations = .ok next) :
    next.Staged ∧ machine.Becomes next := by
  induction operations generalizing machine with
  | nil =>
      cases performs
      exact ⟨staged, .refl _⟩
  | cons operation rest inductionHypothesis =>
      obtain ⟨middle, first, others⟩ := bind_eq_ok_iff.mp performs
      obtain ⟨stagedLast, later⟩ := inductionHypothesis (staged.perform first) others
      exact ⟨stagedLast, (staged.performed first).becomes.trans later⟩

end Staged

/-- Whatever has been asked of a fresh machine: the next operation writes into the books of one
job at most, spends work on the job on the CPU alone and only if it runs it, and changes no
time that is set; nor does anything that is asked after it. -/
theorem performAll_writes_once {workload : List Spec} {ready : ReadyQueue} {fixesWaiting : Bool}
    {operations : List Operation} {machine : Machine}
    (reached : (ofWorkload workload ready fixesWaiting).performAll operations = .ok machine) :
    (∀ operation next, machine.perform operation = .ok next →
      Performed operation machine next) ∧
    ∀ later last, machine.performAll later = .ok last → machine.Becomes last := by
  have staged := ((staged_ofWorkload workload ready fixesWaiting).performAll reached).1
  exact ⟨fun _ _ performs => staged.performed performs,
    fun _ _ performs => (staged.performAll performs).2⟩

/-- A job that was never admitted loses the CPU, gets it back and completes; then it gets the
CPU once more, after its end, and waits as if it had work. -/
theorem performAll_writes_once_after_completion :
    ∃ machine next last,
      (ofWorkload [⟨0, 2, 0⟩, ⟨9, 1, 0⟩] .emptyRanked true).performAll
        [.start 1, .recordTrace, .runCurrent, .advance 1, .preempt 2, .start 1] = .ok machine ∧
      machine.perform .runCurrent = .ok next ∧
      machine.performAll
        [.runCurrent, .advance 3, .start 1, .markExpired, .expireSlice, .enqueue 1 ⟨0, 0, 1⟩] =
          .ok last ∧
      (last.job? 1).map (fun job => (job.phase, job.firstStart, job.waiting, job.completion)) =
        some (.ready, some 0, some 0, some 2) ∧
      Performed .runCurrent machine next ∧ machine.Becomes last := by
  have reached : ∃ machine next last,
      (ofWorkload [⟨0, 2, 0⟩, ⟨9, 1, 0⟩] .emptyRanked true).performAll
        [.start 1, .recordTrace, .runCurrent, .advance 1, .preempt 2, .start 1] = .ok machine ∧
      machine.perform .runCurrent = .ok next ∧
      machine.performAll
        [.runCurrent, .advance 3, .start 1, .markExpired, .expireSlice, .enqueue 1 ⟨0, 0, 1⟩] =
          .ok last ∧
      (last.job? 1).map (fun job => (job.phase, job.firstStart, job.waiting, job.completion)) =
        some (.ready, some 0, some 0, some 2) := ⟨_, _, _, rfl, rfl, rfl, rfl⟩
  obtain ⟨machine, next, last, isMachine, isNext, isLast, times⟩ := reached
  obtain ⟨once, later⟩ := performAll_writes_once isMachine
  exact ⟨machine, next, last, isMachine, isNext, isLast, times, once _ _ isNext, later _ _ isLast⟩

end Machine

end CpuScheduling
