import CpuScheduling.Proofs.Kernel.Order

/-!
Calls of the kernel from outside, in any order and at any times.  A caller may wake
a job that is pending and due, let a tick pass while the clock has room, and let
an idle CPU wait; whatever it does, every job stays in its place.
-/

namespace CpuScheduling

inductive Call where
  | wake (id : Nat)
  | tick
  | idleUntil (time : UInt64)
  deriving DecidableEq

namespace Kernel

/-- A call that a caller may make. -/
def Allows (kernel : Kernel) : Call → Prop
  | .wake id => ∃ job ∈ kernel.machine.job? id, job.phase = .pending ∧
      job.arrival ≤ kernel.machine.now
  | .tick => kernel.machine.now < wordSize - 1
  | .idleUntil time => kernel.machine.cpu.current = none ∨ time.toNat ≤ kernel.machine.now

instance (kernel : Kernel) : (call : Call) → Decidable (kernel.Allows call)
  | .wake id => inferInstanceAs (Decidable (∃ job ∈ kernel.machine.job? id, _))
  | .tick => inferInstanceAs (Decidable (_ < _))
  | .idleUntil _ => inferInstanceAs (Decidable (_ ∨ _))

def perform (kernel : Kernel) : Call → Checked Kernel
  | .wake id => kernel.wake id
  | .tick => (·.2) <$> kernel.tick
  | .idleUntil time => (·.2) <$> kernel.idleUntil time.toNat

/-- Allowed calls lead from one kernel to the other. -/
inductive Reachable (first : Kernel) : Kernel → Prop where
  | refl : Reachable first first
  | call {kernel next : Kernel} {call : Call} (reachable : Reachable first kernel)
      (allowed : kernel.Allows call) (performed : kernel.perform call = .ok next) :
      Reachable first next

def performAll (kernel : Kernel) : List Call → Option Kernel
  | [] => some kernel
  | call :: rest =>
      if kernel.Allows call then
        match kernel.perform call with
        | .ok next => next.performAll rest
        | .error _ => none
      else none

/-- Where a job is, by its phase. -/
def InPlace (kernel : Kernel) (id : Nat) : Phase → Prop
  | .pending => id ∉ kernel.machine.ready.members ∧ kernel.machine.cpu.current ≠ some id
  | .ready => kernel.machine.ready.members.count id = 1 ∧ kernel.machine.cpu.current ≠ some id
  | .running => kernel.machine.cpu.current = some id ∧ id ∉ kernel.machine.ready.members
  | .finished => id ∉ kernel.machine.ready.members ∧ kernel.machine.cpu.current ≠ some id

/-- Every job is in exactly one place, and the trace accounts for all its work. -/
structure Accounted (workload : List Spec) (kernel : Kernel) : Prop where
  submitted : kernel.machine.jobs.map Job.blank = Job.ofWorkload workload
  inPlace : ∀ id job, kernel.machine.job? id = some job → kernel.InPlace id job.phase
  known : ∀ id, id ∈ kernel.machine.ready.members ∨ kernel.machine.cpu.current = some id →
    ∃ job, kernel.machine.job? id = some job
  finished : kernel.machine.finished = kernel.machine.jobs.countP (·.phase = .finished)
  times : kernel.machine.trace.toList.map (·.time) = List.range kernel.machine.now
  worked : ∀ id job, kernel.machine.job? id = some job →
    job.remaining ≤ job.service ∧
      (heldTicks kernel.machine.trace id).length = job.service - job.remaining
  finished_iff : ∀ id job, kernel.machine.job? id = some job →
    (job.phase = .finished ↔ job.remaining = 0)

variable {workload : List Spec} {first kernel next : Kernel} {call : Call}

theorem Orderly.perform (orderly : kernel.Orderly workload) (allowed : kernel.Allows call) :
    ∃ next, kernel.perform call = .ok next ∧ next.Orderly workload := by
  cases call with
  | wake id =>
      obtain ⟨job, present, isPending, arrived⟩ := allowed
      obtain ⟨next, wakes, order, _⟩ := orderly.wake present isPending arrived
      exact ⟨next, wakes, order⟩
  | tick =>
      have room : kernel.machine.now + 1 < wordSize := Nat.add_lt_of_lt_sub allowed
      obtain ⟨events, next, occupant, ticks, order, _⟩ := orderly.tick room
      exact ⟨next, by simp [Kernel.perform, ticks, Functor.map, Except.map], order⟩
  | idleUntil time =>
      obtain ⟨events, next, waits, order, _⟩ := orderly.idleUntil allowed time.toNat_lt
      exact ⟨next, by simp [Kernel.perform, waits, Functor.map, Except.map], order⟩

theorem Reachable.orderly (reachable : Reachable first kernel) (orderly : first.Orderly workload) :
    kernel.Orderly workload := by
  induction reachable with
  | refl => exact orderly
  | call _ allowed performed inductionHypothesis =>
      obtain ⟨next, performs, order⟩ := inductionHypothesis.perform allowed
      cases performs.symm.trans performed
      exact order

theorem Orderly.inPlace (orderly : kernel.Orderly workload) {id : Nat} {job : Job}
    (present : kernel.machine.job? id = some job) : kernel.InPlace id job.phase := by
  have placement := orderly.settled.placement
  have isPhase := Machine.phase?_of_job? present
  have queued : id ∈ kernel.machine.ready.ids ↔ job.phase = .ready := by
    simpa [isPhase] using placement.mem_iff id
  have onCpu : kernel.machine.cpu.current = some id ↔ job.phase = .running := by
    simpa [isPhase] using placement.current_iff id
  have nodup : kernel.machine.ready.members.Nodup :=
    kernel.machine.ready.ids_perm.nodup_iff.mp placement.nodup
  cases phase : job.phase with
  | pending => simp [InPlace, queued, onCpu, phase]
  | ready =>
      have member := ReadyQueue.mem_members.mpr (queued.mpr phase)
      simp [InPlace, List.count_eq_one_of_mem nodup member, onCpu, phase]
  | running => simp [InPlace, queued, onCpu, phase]
  | finished => simp [InPlace, queued, onCpu, phase]

theorem Orderly.accounted (orderly : kernel.Orderly workload) : kernel.Accounted workload where
  submitted := orderly.settled.table
  inPlace _ _ present := orderly.inPlace present
  known id placed := by
    rcases placed with queued | onCpu
    · have isReady := (orderly.settled.placement.mem_iff id).mp (ReadyQueue.mem_members.mp queued)
      obtain ⟨job, present, _⟩ := Machine.phase?_eq_some_iff.mp isReady
      exact ⟨job, present⟩
    · have isRunning := (orderly.settled.placement.current_iff id).mp onCpu
      obtain ⟨job, present, _⟩ := Machine.phase?_eq_some_iff.mp isRunning
      exact ⟨job, present⟩
  finished := orderly.settled.finished_eq
  times := orderly.settled.elapsed ▸ orderly.settled.chronological
  worked id job present := by
    have worked := (orderly.settled.balanced id job present).worked
    omega
  finished_iff id job present := (orderly.settled.balanced id job present).finished_iff

theorem reachable_of_performAll {calls : List Call} {middle : Kernel}
    (reachable : Reachable first middle) (performed : middle.performAll calls = some kernel) :
    Reachable first kernel := by
  induction calls generalizing middle with
  | nil =>
      cases performed
      exact reachable
  | cons call rest inductionHypothesis =>
      simp only [performAll] at performed
      split at performed
      next allowed =>
        split at performed
        next next isNext => exact inductionHypothesis (reachable.call allowed isNext) performed
        next => cases performed
      next => cases performed

/-- No order of calls breaks a check or loses, doubles or mistimes a job. -/
theorem reachable_accounted {config : Config} {policy : Policy}
    (created : ofWorkload workload config policy = .ok first)
    (positive : ∀ spec ∈ workload, 0 < spec.service) (reachable : Reachable first kernel) :
    kernel.Accounted workload ∧
      ∀ call, kernel.Allows call → ∃ next, kernel.perform call = .ok next := by
  have orderly := reachable.orderly (ofWorkload_orderly created positive).1
  refine ⟨orderly.accounted, fun call allowed => ?_⟩
  obtain ⟨next, performs, _⟩ := orderly.perform allowed
  exact ⟨next, performs⟩

/-- The second job arrives late and the CPU waits although a job is queued. -/
theorem reachable_accounted_late_wake :
    ∃ first kernel,
      ofWorkload [⟨0, 2, 0⟩, ⟨0, 1, 0⟩] { quantum := some 1 } .roundRobin = .ok first ∧
      first.performAll [.wake 1, .idleUntil 1, .tick, .wake 2, .tick] = some kernel ∧
      kernel.machine.trace = #[⟨0, none⟩, ⟨1, some 1⟩, ⟨2, some 2⟩] ∧
      kernel.Accounted [⟨0, 2, 0⟩, ⟨0, 1, 0⟩] ∧ ∃ next, kernel.perform .tick = .ok next := by
  have performed : ∃ first kernel,
      ofWorkload [⟨0, 2, 0⟩, ⟨0, 1, 0⟩] { quantum := some 1 } .roundRobin = .ok first ∧
      first.performAll [.wake 1, .idleUntil 1, .tick, .wake 2, .tick] = some kernel ∧
      kernel.machine.trace = #[⟨0, none⟩, ⟨1, some 1⟩, ⟨2, some 2⟩] ∧
      kernel.Allows .tick := ⟨_, _, rfl, rfl, rfl, by decide⟩
  obtain ⟨first, kernel, created, calls, traced, allowed⟩ := performed
  obtain ⟨accounted, safe⟩ :=
    reachable_accounted created (by decide) (reachable_of_performAll .refl calls)
  exact ⟨first, kernel, created, calls, traced, accounted, safe .tick allowed⟩

end Kernel

end CpuScheduling
