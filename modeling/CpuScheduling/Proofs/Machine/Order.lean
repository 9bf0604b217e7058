import CpuScheduling.Proofs.Machine.HeldTicks
import CpuScheduling.Proofs.Machine.JobBooks
import CpuScheduling.Proofs.Machine.Placement

/-!
The invariant of the machine.  Every operation that starts from an orderly
machine breaks no check and leaves an orderly machine behind.

`clock` is the time up to which the books are kept: the time that the machine
shows, or one tick more once the tick has been worked.  Jobs in `limbo` are ready
but not queued: they have left the queue or the CPU and are about to be put into
the other.
-/

namespace CpuScheduling.Machine

structure Booked (workload : List Spec) (clock : Nat) (machine : Machine) : Prop where
  table : machine.jobs.map Job.blank = Job.ofWorkload workload
  balanced : ∀ id job, machine.job? id = some job →
    job.Balanced machine.fixesWaiting clock (heldTicks machine.trace id)
  known : ∀ id, machine.job? id = none → heldTicks machine.trace id = []
  chronological : Chronological machine.trace
  finished_eq : machine.finished = machine.jobs.countP (·.phase = .finished)

/-- The books agree with the trace and every job is in its place. -/
structure Orderly (workload : List Spec) (clock : Nat) (limbo : List Nat) (machine : Machine) :
    Prop extends Booked workload clock machine where
  placement : Placement machine.phase? machine.cpu.current (limbo ++ machine.ready.ids)

/-- The machine between two ticks: nobody is in limbo, and the job on the CPU has
held it before. -/
structure Settled (workload : List Spec) (machine : Machine) : Prop
    extends Orderly workload machine.now [] machine where
  elapsed : machine.trace.size = machine.now
  traced : ∀ id, machine.cpu.current = some id → heldTicks machine.trace id ≠ []

variable {workload : List Spec} {clock : Nat} {limbo : List Nat} {machine : Machine} {id : Nat}
  {old : Job}

theorem map_blank_put (present : machine.job? id = some old) {job : Job}
    (same : job.blank = old.blank) :
    (machine.put id job).jobs.map Job.blank = machine.jobs.map Job.blank := by
  cases id with
  | zero => simp [job?] at present
  | succ index =>
      obtain ⟨inTable, isOld⟩ := List.getElem?_eq_some_iff.mp present
      simp only [put, Nat.add_sub_cancel, List.map_set]
      apply List.ext_getElem
      · simp
      · intro place left right
        by_cases here : index = place
        · subst here
          simp [same, isOld]
        · simp [List.getElem_set_ne here]

theorem countP_put (present : machine.job? id = some old) (job : Job) (select : Job → Bool) :
    (machine.put id job).jobs.countP select + (if select old then 1 else 0) =
      machine.jobs.countP select + if select job then 1 else 0 := by
  cases id with
  | zero => simp [job?] at present
  | succ index =>
      obtain ⟨inTable, isOld⟩ := List.getElem?_eq_some_iff.mp present
      have counted : select old = true → 0 < machine.jobs.countP select := fun selected =>
        List.countP_pos_iff.mpr ⟨old, mem_jobs_of_job? present, selected⟩
      simp only [put, Nat.add_sub_cancel, List.countP_set inTable, isOld]
      split
      next selected =>
        have atLeastOne := counted selected
        omega
      next => omega

namespace Booked

theorem of_same {other : Machine} (booked : machine.Booked workload clock)
    (jobs : other.jobs = machine.jobs) (record : other.trace = machine.trace)
    (fixesWaiting : other.fixesWaiting = machine.fixesWaiting)
    (finished : other.finished = machine.finished) : other.Booked workload clock := by
  cases machine
  cases other
  cases jobs
  cases record
  cases fixesWaiting
  cases finished
  exact ⟨booked.table, booked.balanced, booked.known, booked.chronological, booked.finished_eq⟩

theorem blank_eq (booked : machine.Booked workload clock) (present : machine.job? id = some old) :
    old.id = id ∧ old.blank ∈ Job.ofWorkload workload := by
  cases id with
  | zero => simp [job?] at present
  | succ index =>
      have listed : (Job.ofWorkload workload)[index]? = some old.blank := by
        rw [← booked.table, List.getElem?_map]
        exact congrArg (Option.map Job.blank) present
      refine ⟨?_, List.mem_of_getElem? listed⟩
      rw [Job.getElem?_ofWorkload, Option.map_eq_some_iff] at listed
      obtain ⟨spec, _, submitted⟩ := listed
      exact (congrArg Job.id submitted).symm

theorem exists_submitted (booked : machine.Booked workload clock) {job : Job}
    (member : job ∈ Job.ofWorkload workload) :
    ∃ found, machine.job? job.id = some found ∧ found.blank = job := by
  obtain ⟨index, listed⟩ := List.mem_iff_getElem?.mp member
  have isNext : job.id = index + 1 := by
    rw [Job.getElem?_ofWorkload, Option.map_eq_some_iff] at listed
    obtain ⟨spec, _, rfl⟩ := listed
    rfl
  rw [← booked.table, List.getElem?_map, Option.map_eq_some_iff] at listed
  obtain ⟨found, isFound, same⟩ := listed
  exact ⟨found, isNext ▸ isFound, same⟩

theorem allFinished_iff (booked : machine.Booked workload clock) :
    machine.allFinished = true ↔ ∀ job ∈ machine.jobs, job.phase = .finished := by
  simp only [allFinished, beq_iff_eq, booked.finished_eq, List.countP_eq_length,
    decide_eq_true_eq]

theorem put (booked : machine.Booked workload clock) (present : machine.job? id = some old)
    {job : Job}
    (balanced : job.Balanced machine.fixesWaiting clock (heldTicks machine.trace id))
    (same : job.blank = old.blank) (finished : job.phase = .finished ↔ old.phase = .finished) :
    (machine.put id job).Booked workload clock where
  table := by rw [map_blank_put present same, booked.table]
  balanced other job' found := by
    rw [job?_put present] at found
    split at found
    next here =>
      cases found
      exact here ▸ balanced
    next => exact booked.balanced other job' found
  known other missing := by
    rw [job?_put present] at missing
    split at missing
    next => cases missing
    next => exact booked.known other missing
  chronological := booked.chronological
  finished_eq := by
    have counts := countP_put present job (fun job => decide (job.phase = .finished))
    simp only [finished] at counts
    have unchanged := Nat.add_right_cancel counts
    exact booked.finished_eq.trans unchanged.symm

theorem idle (booked : machine.Booked workload clock)
    (nobody : ∀ id, machine.phase? id ≠ some .running) (elapsed : machine.trace.size = clock)
    (ticks : Nat) :
    { machine with trace := machine.trace ++ idleTrace clock ticks }.Booked
      workload (clock + ticks) where
  table := booked.table
  balanced id job found := by
    have offCpu : job.phase ≠ .running := fun isRunning =>
      nobody id (phase?_eq_some_iff.mpr ⟨job, found, isRunning⟩)
    simp only [heldTicks_append_idleTrace]
    exact (booked.balanced id job found).wait offCpu (Nat.le_add_right clock ticks)
  known id missing := by
    rw [heldTicks_append_idleTrace]
    exact booked.known id missing
  chronological := elapsed ▸ booked.chronological.appendIdle ticks
  finished_eq := booked.finished_eq

theorem tickIdle (booked : machine.Booked workload clock)
    (nobody : ∀ id, machine.phase? id ≠ some .running) (elapsed : machine.trace.size = clock) :
    { machine with trace := machine.trace.push ⟨clock, none⟩ }.Booked workload (clock + 1) := by
  have oneTick : machine.trace ++ idleTrace clock 1 = machine.trace.push ⟨clock, none⟩ := by
    simp [idleTrace]
  exact oneTick ▸ booked.idle nobody elapsed 1

theorem tickWork (booked : machine.Booked workload clock)
    (running : ∀ other, machine.phase? other = some .running → other = id)
    (elapsed : machine.trace.size = clock) (present : machine.job? id = some old)
    (unfinished : old.phase ≠ .finished) {job : Job}
    (balanced : job.Balanced machine.fixesWaiting (clock + 1)
      (heldTicks machine.trace id ++ [clock])) (same : job.blank = old.blank) :
    { machine.put id job with
      trace := machine.trace.push ⟨clock, some id⟩
      finished := machine.finished + if job.phase = Phase.finished then 1 else 0 }.Booked
        workload (clock + 1) where
  table := (map_blank_put present same).trans booked.table
  balanced other job' found := by
    change (machine.put id job).job? other = some job' at found
    rw [job?_put present] at found
    split at found
    next here =>
      subst here
      cases found
      rw [heldTicks_push_self]
      exact balanced
    next elsewhere =>
      have offCpu : job'.phase ≠ .running := fun isRunning =>
        elsewhere (running other (phase?_eq_some_iff.mpr ⟨job', found, isRunning⟩))
      have unheld : heldTicks (machine.trace.push ⟨clock, some id⟩) other =
          heldTicks machine.trace other :=
        heldTicks_push_of_ne (by simpa using Ne.symm elsewhere)
      simp only [unheld]
      exact (booked.balanced other job' found).wait offCpu (Nat.le_succ clock)
  known other missing := by
    change (machine.put id job).job? other = none at missing
    rw [job?_put present] at missing
    split at missing
    next => cases missing
    next elsewhere =>
      rw [heldTicks_push_of_ne (by simpa using Ne.symm elsewhere)]
      exact booked.known other missing
  chronological := elapsed ▸ booked.chronological.push (some id)
  finished_eq := by
    have counts := countP_put present job (fun job => decide (job.phase = .finished))
    simp only [unfinished, decide_false, Bool.false_eq_true, ↓reduceIte, Nat.add_zero,
      decide_eq_true_eq] at counts
    rw [booked.finished_eq]
    exact counts.symm

end Booked

end CpuScheduling.Machine
