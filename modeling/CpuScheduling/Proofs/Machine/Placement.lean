import CpuScheduling.Machine
import Mathlib.Data.List.Nodup

/-!
Where jobs are.  A job that is ready waits in exactly one place, and the job on
the CPU is the one that is running; pending and finished jobs are nowhere.
-/

namespace CpuScheduling

namespace Machine

variable {machine : Machine} {id : Nat} {old : Job}

def phase? (machine : Machine) (id : Nat) : Option Phase :=
  (machine.job? id).map (·.phase)

theorem phase?_eq_some_iff {phase : Phase} :
    machine.phase? id = some phase ↔ ∃ job, machine.job? id = some job ∧ job.phase = phase :=
  Option.map_eq_some_iff

theorem phase?_of_job? (present : machine.job? id = some old) :
    machine.phase? id = some old.phase := by
  rw [phase?, present, Option.map_some]

theorem phase?_pending_of {before after : Machine}
    (was : ∀ job, job.phase = .pending → after.job? id = some job → before.job? id = some job)
    (isPending : after.phase? id = some .pending) : before.phase? id = some .pending := by
  obtain ⟨job, present, phase⟩ := phase?_eq_some_iff.mp isPending
  exact phase?_eq_some_iff.mpr ⟨job, was job phase present, phase⟩

theorem job_of_job? (present : machine.job? id = some old) : machine.job id = .ok old := by
  rw [job, present]

theorem id_pos_of_job? (present : machine.job? id = some old) : 0 < id := by
  cases id with
  | zero => simp [job?] at present
  | succ index => omega

theorem job?_put (present : machine.job? id = some old) (job : Job) (other : Nat) :
    (machine.put id job).job? other = if other = id then some job else machine.job? other := by
  split
  next same => exact same ▸ job?_put_self present job
  next different => exact job?_put_of_ne different (id_pos_of_job? present) job

theorem phase?_put (present : machine.job? id = some old) (job : Job) (other : Nat) :
    (machine.put id job).phase? other =
      if other = id then some job.phase else machine.phase? other := by
  simp only [phase?, job?_put present]
  split <;> rfl

theorem exists_job?_of_mem {job : Job} (membership : job ∈ machine.jobs) :
    ∃ id, machine.job? id = some job := by
  obtain ⟨index, found⟩ := List.mem_iff_getElem?.mp membership
  exact ⟨index + 1, found⟩

theorem mem_jobs_of_job? (present : machine.job? id = some old) : old ∈ machine.jobs := by
  cases id with
  | zero => simp [job?] at present
  | succ index => exact List.mem_of_getElem? present

end Machine

structure Placement (phase? : Nat → Option Phase) (current : Option Nat) (waiting : List Nat) :
    Prop where
  mem_iff : ∀ id, id ∈ waiting ↔ phase? id = some .ready
  nodup : waiting.Nodup
  current_iff : ∀ id, current = some id ↔ phase? id = some .running

namespace Placement

variable {phase? moved : Nat → Option Phase} {current : Option Nat} {waiting : List Nat} {id : Nat}

theorem ready_of_mem {machine : Machine} {job : Job}
    (placement : Placement machine.phase? current waiting) (waits : id ∈ waiting)
    (present : machine.job? id = some job) : job.phase = .ready := by
  simpa [Machine.phase?_of_job? present] using (placement.mem_iff id).mp waits

theorem running_of_current {machine : Machine} {job : Job}
    (placement : Placement machine.phase? current waiting) (runs : current = some id)
    (present : machine.job? id = some job) : job.phase = .running := by
  simpa [Machine.phase?_of_job? present] using (placement.current_iff id).mp runs

theorem perm {other : List Nat} (placement : Placement phase? current waiting)
    (same : other.Perm waiting) : Placement phase? current other where
  mem_iff id := same.mem_iff.trans (placement.mem_iff id)
  nodup := same.nodup_iff.mpr placement.nodup
  current_iff := placement.current_iff

theorem arrive (placement : Placement phase? current waiting) (isPending : phase? id = some .pending)
    (moves : ∀ other, moved other = if other = id then some .ready else phase? other) :
    Placement moved current (id :: waiting) where
  mem_iff other := by
    by_cases same : other = id <;> simp [moves, same, placement.mem_iff]
  nodup := by
    refine List.nodup_cons.mpr ⟨fun membership => ?_, placement.nodup⟩
    simp [(placement.mem_iff id).mp membership] at isPending
  current_iff other := by
    by_cases same : other = id <;> simp [moves, same, placement.current_iff, isPending]

theorem start (placement : Placement phase? none (id :: waiting))
    (moves : ∀ other, moved other = if other = id then some .running else phase? other) :
    Placement moved (some id) waiting where
  mem_iff other := by
    have waits := placement.mem_iff other
    have once := (List.nodup_cons.mp placement.nodup).1
    by_cases same : other = id
    · simp [moves, same, once]
    · simpa [moves, same] using waits
  nodup := (List.nodup_cons.mp placement.nodup).2
  current_iff other := by
    have idle := placement.current_iff other
    by_cases same : other = id
    · simp [moves, same]
    · simpa [moves, same, Ne.symm same, eq_comm] using idle

theorem release (placement : Placement phase? (some id) waiting)
    (moves : ∀ other, moved other = if other = id then some .ready else phase? other) :
    Placement moved none (id :: waiting) where
  mem_iff other := by
    by_cases same : other = id <;> simp [moves, same, placement.mem_iff]
  nodup := by
    refine List.nodup_cons.mpr ⟨fun membership => ?_, placement.nodup⟩
    have isRunning := (placement.current_iff id).mp rfl
    simp [(placement.mem_iff id).mp membership] at isRunning
  current_iff other := by
    have runs := placement.current_iff other
    by_cases same : other = id
    · simp [moves, same]
    · simpa [moves, same, Ne.symm same] using runs

theorem finish (placement : Placement phase? (some id) waiting)
    (moves : ∀ other, moved other = if other = id then some .finished else phase? other) :
    Placement moved none waiting where
  mem_iff other := by
    have isRunning := (placement.current_iff id).mp rfl
    by_cases same : other = id <;> simp [moves, same, placement.mem_iff, isRunning]
  nodup := placement.nodup
  current_iff other := by
    have runs := placement.current_iff other
    by_cases same : other = id
    · simp [moves, same]
    · simpa [moves, same, Ne.symm same] using runs

theorem congr (placement : Placement phase? current waiting) (same : ∀ id, moved id = phase? id) :
    Placement moved current waiting where
  mem_iff id := by rw [same, placement.mem_iff]
  nodup := placement.nodup
  current_iff id := by rw [same, placement.current_iff]

end Placement

end CpuScheduling
