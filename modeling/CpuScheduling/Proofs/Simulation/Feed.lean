import CpuScheduling.Proofs.Kernel.Order
import CpuScheduling.Proofs.Simulation.Demand
import Mathlib.Algebra.Order.BigOperators.Group.List
import Mathlib.Algebra.Order.Group.Nat

/-!
A kernel to which arrivals are fed in time.  What is left to do is the work that a
CPU would still have which never rests while a job waits, so the CPU is idle exactly
in the ticks in which such a one would be.
-/

namespace CpuScheduling.Kernel

/-- The jobs of a workload are fed to the kernel by arrival: some have been woken, the
others are due. -/
structure Fed (workload : List Spec) (woken awaited : List Job) (kernel : Kernel) : Prop where
  orderly : kernel.Orderly workload
  split : woken ++ awaited = arrivals workload
  come : ∀ job ∈ woken, job.arrival ≤ kernel.machine.now ∧
    kernel.machine.phase? job.id ≠ some .pending
  due : ∀ job ∈ awaited, kernel.machine.now ≤ job.arrival ∧
    kernel.machine.job? job.id = some job

/-- The CPU has rested only where there was nothing to do. -/
structure Conserving (workload : List Spec) (woken awaited : List Job) (kernel : Kernel) : Prop
    extends Fed workload woken awaited kernel where
  backlog : busyCount kernel.machine.trace + (drainTime woken - kernel.machine.now) = demand woken
  idle : idleTicks kernel.machine.trace =
    (List.range kernel.machine.now).filter fun time => Drained workload time

variable {workload : List Spec} {woken awaited : List Job} {kernel : Kernel}

namespace Fed

variable (fed : kernel.Fed workload woken awaited)

include fed

theorem nodup : ((woken ++ awaited).map (·.id)).Nodup := by
  have sameIds := (arrivals_perm workload).map (·.id)
  rw [fed.split, sameIds.nodup_iff, Job.map_id_ofWorkload]
  exact List.nodup_range'

theorem submitted {job : Job} (member : job ∈ woken ∨ job ∈ awaited) :
    job ∈ Job.ofWorkload workload := by
  rw [← mem_arrivals, ← fed.split]
  exact List.mem_append.mpr member

omit fed in
theorem head_first {job : Job} {rest : List Job} (fed : kernel.Fed workload woken (job :: rest)) :
    ∀ other ∈ job :: rest, job.arrival ≤ other.arrival := by
  have ordered := pairwise_arrivals workload
  rw [← fed.split] at ordered
  have laterOnes := (List.pairwise_append.mp ordered).2.1
  intro other member
  rcases List.mem_cons.mp member with same | inRest
  · rw [same]
  · exact (List.pairwise_cons.mp laterOnes).1 other inRest

theorem arrival_lt_makespan {job : Job} (member : job ∈ arrivals workload) :
    job.arrival < makespan workload := by
  obtain ⟨found, present, rfl⟩ := fed.orderly.settled.exists_submitted (mem_arrivals.mp member)
  have positive : 0 < found.blank.service :=
    (fed.orderly.settled.balanced _ found present).positive
  have served : found.blank.arrival + found.blank.service ≤ makespan workload :=
    served_le_drainTime member
  omega

theorem woken_or_awaited {id : Nat} {job : Job} (present : kernel.machine.job? id = some job) :
    job.blank.id = id ∧ (job.blank ∈ woken ∨ job.blank ∈ awaited) := by
  obtain ⟨named, member⟩ := fed.orderly.settled.blank_eq present
  refine ⟨named, List.mem_append.mp ?_⟩
  rw [fed.split]
  exact mem_arrivals.mpr member

theorem exists_woken {job : Job} (member : job ∈ woken) :
    ∃ found, kernel.machine.job? job.id = some found ∧
      (heldTicks kernel.machine.trace job.id).length + found.remaining = job.service ∧
      (found.phase = .finished ↔ found.remaining = 0) := by
  obtain ⟨found, present, rfl⟩ :=
    fed.orderly.settled.exists_submitted (fed.submitted (.inl member))
  have balanced := fed.orderly.settled.balanced _ found present
  exact ⟨found, present, balanced.worked, balanced.finished_iff⟩

theorem heldTicks_eq_nil {id : Nat} (asleep : id ∉ woken.map (·.id)) :
    heldTicks kernel.machine.trace id = [] := by
  cases present : kernel.machine.job? id with
  | none => exact fed.orderly.settled.known id present
  | some job =>
      obtain ⟨named, isWoken | isAwaited⟩ := fed.woken_or_awaited present
      · have inWoken := List.mem_map_of_mem (f := (·.id)) isWoken
        exact absurd (named ▸ inWoken) asleep
      · have isBlank := (fed.due _ isAwaited).2
        rw [named, present, Option.some.injEq] at isBlank
        exact (fed.orderly.settled.balanced id job present).unstarted (isBlank ▸ rfl)

theorem busyCount_eq :
    busyCount kernel.machine.trace =
      (woken.map fun job => (heldTicks kernel.machine.trace job.id).length).sum := by
  have nodup : (woken.map (·.id)).Nodup := by
    have whole := fed.nodup
    rw [List.map_append] at whole
    exact whole.of_append_left
  rw [← sum_length_heldTicks nodup fun id asleep => fed.heldTicks_eq_nil asleep, List.map_map]
  rfl

theorem held_le {job : Job} (member : job ∈ woken) :
    (heldTicks kernel.machine.trace job.id).length ≤ job.service := by
  obtain ⟨found, _, worked, _⟩ := fed.exists_woken member
  exact Nat.le.intro worked

theorem busyCount_le : busyCount kernel.machine.trace ≤ demand woken := by
  rw [fed.busyCount_eq]
  exact List.sum_le_sum fun job member => fed.held_le member

theorem busyCount_lt {job : Job} (member : job ∈ woken)
    (unfinished : kernel.machine.phase? job.id ≠ some .finished) :
    busyCount kernel.machine.trace < demand woken := by
  rw [fed.busyCount_eq]
  refine List.sum_lt_sum _ _ (fun job member => fed.held_le member) ⟨job, member, ?_⟩
  obtain ⟨found, present, worked, finished_iff⟩ := fed.exists_woken member
  have left : found.remaining ≠ 0 := fun done =>
    unfinished (Machine.phase?_eq_some_iff.mpr ⟨found, present, finished_iff.mpr done⟩)
  omega

theorem busyCount_of_finished
    (finished : ∀ job ∈ woken, kernel.machine.phase? job.id = some .finished) :
    busyCount kernel.machine.trace = demand woken := by
  rw [fed.busyCount_eq, demand]
  congr 1
  apply List.map_congr_left
  intro job member
  obtain ⟨found, present, worked, finished_iff⟩ := fed.exists_woken member
  have isFinished : found.phase = .finished := by
    simpa [Machine.phase?_of_job? present] using finished job member
  have done := finished_iff.mp isFinished
  omega

theorem finished_of_idle (idle : kernel.machine.cpu.current = none)
    (empty : kernel.machine.ready.ids = []) :
    ∀ job ∈ woken, kernel.machine.phase? job.id = some .finished := by
  intro job member
  obtain ⟨found, present, _⟩ := fed.exists_woken member
  have isPhase := Machine.phase?_of_job? present
  have notPending := (fed.come job member).2
  have placement := fed.orderly.settled.placement
  have waits := placement.mem_iff job.id
  have runs := placement.current_iff job.id
  rw [isPhase] at *
  cases phase : found.phase with
  | pending => simp [phase] at notPending
  | ready => simp [phase, empty] at waits
  | running => simp [phase, idle] at runs
  | finished => rfl

end Fed

namespace Fed

theorem wake {job : Job} {rest : List Job} (fed : kernel.Fed workload woken (job :: rest))
    (come : job.arrival ≤ kernel.machine.now) :
    ∃ next, kernel.wake job.id = .ok next ∧ next.Fed workload (woken ++ [job]) rest ∧
      Woken job.id kernel next := by
  have present := (fed.due job List.mem_cons_self).2
  have isPending := Job.phase_of_mem_ofWorkload (fed.submitted (.inr List.mem_cons_self))
  obtain ⟨next, wakes, orderly, woke⟩ := fed.orderly.wake present isPending come
  refine ⟨next, wakes, ⟨orderly, ?_, ?_, ?_⟩, woke⟩
  · rw [← fed.split, List.append_assoc, List.singleton_append]
  · intro other member
    rcases List.mem_append.mp member with before | now
    · obtain ⟨arrived, notPending⟩ := fed.come other before
      refine ⟨woke.now ▸ arrived, fun stillPending => ?_⟩
      by_cases same : other.id = job.id
      · exact woke.woken (same ▸ stillPending)
      · exact notPending (Machine.phase?_pending_of
          (fun found phase => (woke.pending other.id found same phase).mp) stillPending)
    · cases List.mem_singleton.mp now
      exact ⟨woke.now ▸ come, woke.woken⟩
  · intro other member
    obtain ⟨later, isOther⟩ := fed.due other (List.mem_cons_of_mem job member)
    have different : other.id ≠ job.id := by
      have nodup := fed.nodup
      rw [List.map_append, List.map_cons] at nodup
      have inRest := List.mem_map_of_mem (f := (·.id)) member
      intro same
      exact (List.nodup_cons.mp nodup.of_append_right).1 (same ▸ inRest)
    have phase := Job.phase_of_mem_ofWorkload (fed.submitted (.inr (List.mem_cons_of_mem job member)))
    exact ⟨woke.now ▸ later, (woke.pending other.id other different phase).mpr isOther⟩

theorem tick (fed : kernel.Fed workload woken awaited)
    (later : ∀ job ∈ awaited, kernel.machine.now < job.arrival)
    (room : kernel.machine.now + 1 < wordSize) :
    ∃ events next occupant, kernel.tick = .ok (events, next) ∧
      next.Fed workload woken awaited ∧ Ticked occupant kernel next := by
  obtain ⟨events, next, occupant, ticks, orderly, ticked⟩ := fed.orderly.tick room
  refine ⟨events, next, occupant, ticks, ⟨orderly, fed.split, ?_, ?_⟩, ticked⟩
  · intro job member
    obtain ⟨arrived, notPending⟩ := fed.come job member
    refine ⟨?_, fun stillPending => notPending (Machine.phase?_pending_of
      (fun found phase => (ticked.pending job.id found phase).mp) stillPending)⟩
    rw [ticked.now]
    exact Nat.le_succ_of_le arrived
  · intro job member
    have phase := Job.phase_of_mem_ofWorkload (fed.submitted (.inr member))
    refine ⟨?_, (ticked.pending job.id job phase).mpr (fed.due job member).2⟩
    rw [ticked.now]
    exact later job member

theorem idleUntil {time : Nat} (fed : kernel.Fed workload woken awaited)
    (idle : kernel.machine.cpu.current = none) (room : time < wordSize)
    (before : ∀ job ∈ awaited, time ≤ job.arrival) :
    ∃ events next, kernel.idleUntil time = .ok (events, next) ∧
      next.Fed workload woken awaited ∧ next.scheduler = kernel.scheduler ∧
      Machine.Idled time kernel.machine next.machine := by
  obtain ⟨events, next, waits, orderly, scheduler, idled⟩ :=
    fed.orderly.idleUntil (.inl idle) room
  have sameJobs (id : Nat) : next.machine.job? id = kernel.machine.job? id := by
    cases id with
    | zero => rfl
    | succ index => simp [Machine.job?, idled.jobs]
  have passes := idled.now
  refine ⟨events, next, waits, ⟨orderly, fed.split, ?_, ?_⟩, scheduler, idled⟩
  · intro job member
    obtain ⟨arrived, notPending⟩ := fed.come job member
    refine ⟨by omega, ?_⟩
    rwa [Machine.phase?, sameJobs]
  · intro job member
    obtain ⟨later, present⟩ := fed.due job member
    have notBefore := before job member
    exact ⟨by omega, sameJobs job.id ▸ present⟩

end Fed

namespace Conserving

variable (conserving : kernel.Conserving workload woken awaited)

include conserving

/-- An idle CPU that nobody waits for has drained what was woken. -/
theorem drainTime_le (idle : kernel.machine.cpu.current = none)
    (empty : kernel.machine.ready.ids = []) : drainTime woken ≤ kernel.machine.now := by
  have served := conserving.busyCount_of_finished (conserving.finished_of_idle idle empty)
  have backlog := conserving.backlog
  omega

theorem makespan_le (finished : kernel.machine.allFinished = true) :
    awaited = [] ∧ makespan workload ≤ kernel.machine.now := by
  have allDone := conserving.orderly.settled.allFinished_iff.mp finished
  have nobodyDue : awaited = [] := by
    apply List.eq_nil_iff_forall_not_mem.mpr
    intro job member
    have isPending := Job.phase_of_mem_ofWorkload (conserving.submitted (.inr member))
    have isFinished := allDone job (Machine.mem_jobs_of_job? (conserving.due job member).2)
    simp [isPending] at isFinished
  have served := conserving.busyCount_of_finished fun job member => by
    obtain ⟨found, present, _⟩ := conserving.exists_woken member
    rw [Machine.phase?_of_job? present, allDone found (Machine.mem_jobs_of_job? present)]
  have backlog := conserving.backlog
  refine ⟨nobodyDue, ?_⟩
  rw [makespan, ← conserving.split, nobodyDue, List.append_nil]
  omega

theorem lt_makespan (unfinished : kernel.machine.allFinished = false) :
    kernel.machine.now < makespan workload := by
  obtain ⟨job, member, notDone⟩ : ∃ job ∈ kernel.machine.jobs, job.phase ≠ .finished := by
    by_contra none
    push Not at none
    simp [conserving.orderly.settled.allFinished_iff.mpr none] at unfinished
  obtain ⟨id, present⟩ := Machine.exists_job?_of_mem member
  obtain ⟨named, isWoken | isAwaited⟩ := conserving.woken_or_awaited present
  · have unserved := conserving.busyCount_lt isWoken (by
      simpa [named, Machine.phase?_of_job? present] using notDone)
    have backlog := conserving.backlog
    have whole := drainTime_le_append woken awaited
    rw [makespan, ← conserving.split]
    omega
  · have toCome := (conserving.due _ isAwaited).1
    have inArrivals : job.blank ∈ arrivals workload := by
      rw [← conserving.split]
      exact List.mem_append_right woken isAwaited
    exact Nat.lt_of_le_of_lt toCome (conserving.arrival_lt_makespan inArrivals)

end Conserving

namespace Conserving

theorem wake {job : Job} {rest : List Job}
    (conserving : kernel.Conserving workload woken (job :: rest))
    (come : job.arrival ≤ kernel.machine.now) :
    ∃ next, kernel.wake job.id = .ok next ∧ next.Conserving workload (woken ++ [job]) rest ∧
      Woken job.id kernel next := by
  obtain ⟨next, wakes, fed, woke⟩ := conserving.toFed.wake come
  have inTime := (conserving.due job List.mem_cons_self).1
  have isNow : job.arrival = kernel.machine.now := by omega
  refine ⟨next, wakes, ⟨fed, ?_, ?_⟩, woke⟩
  · have backlog := conserving.backlog
    have added : drainTime (woken ++ [job]) - kernel.machine.now =
        drainTime woken - kernel.machine.now + job.service := by
      rw [← isNow, drainTime_concat_sub]
    rw [woke.record, woke.now, demand_append, added]
    simp only [demand, List.map_cons, List.map_nil, List.sum_singleton] at *
    omega
  · rw [woke.record, woke.now]
    exact conserving.idle

/-- The CPU rests in a tick if and only if nothing is left to do. -/
theorem tick (conserving : kernel.Conserving workload woken awaited)
    (later : ∀ job ∈ awaited, kernel.machine.now < job.arrival)
    (room : kernel.machine.now + 1 < wordSize) :
    ∃ events next occupant, kernel.tick = .ok (events, next) ∧
      next.Conserving workload woken awaited ∧ Ticked occupant kernel next := by
  obtain ⟨events, next, occupant, ticks, fed, ticked⟩ := conserving.toFed.tick later room
  have backlog := conserving.backlog
  have rests : occupant = none ↔ drainTime woken ≤ kernel.machine.now := by
    cases occupant with
    | none =>
        have ⟨idle, empty⟩ := ticked.idle rfl
        have served := fed.busyCount_of_finished (fed.finished_of_idle idle empty)
        rw [ticked.record, busyCount_push] at served
        simp only [Option.isSome_none, Bool.false_eq_true, ↓reduceIte] at served
        simp only [true_iff]
        omega
    | some id =>
        have bounded := fed.busyCount_le
        rw [ticked.record, busyCount_push] at bounded
        simp only [Option.isSome_some, ↓reduceIte] at bounded
        simp only [reduceCtorEq, false_iff]
        omega
  have drained := drained_iff conserving.split (fun job member => (conserving.come job member).1)
    later
  refine ⟨events, next, occupant, ticks, ⟨fed, ?_, ?_⟩, ticked⟩
  · rw [ticked.record, ticked.now, busyCount_push]
    cases occupant with
    | none =>
        have free := rests.mp rfl
        simp only [Option.isSome_none, Bool.false_eq_true, ↓reduceIte]
        omega
    | some id =>
        simp only [reduceCtorEq, false_iff] at rests
        simp only [Option.isSome_some, ↓reduceIte]
        omega
  · rw [ticked.record, ticked.now, idleTicks_push, conserving.idle, List.range_succ,
      List.filter_append]
    congr 1
    cases occupant with
    | none => simp [drained, rests.mp rfl]
    | some id =>
        simp only [reduceCtorEq, false_iff] at rests
        simp [drained, rests]

theorem idleUntil {time : Nat} (conserving : kernel.Conserving workload woken awaited)
    (idle : kernel.machine.cpu.current = none) (empty : kernel.machine.ready.ids = [])
    (room : time < wordSize) (before : ∀ job ∈ awaited, time ≤ job.arrival) :
    ∃ events next, kernel.idleUntil time = .ok (events, next) ∧
      next.Conserving workload woken awaited ∧ next.scheduler = kernel.scheduler ∧
      next.machine.now = max kernel.machine.now time := by
  obtain ⟨events, next, waits, fed, scheduler, idled⟩ :=
    conserving.toFed.idleUntil idle room before
  have free := conserving.drainTime_le idle empty
  have passes := idled.now
  refine ⟨events, next, waits, ⟨fed, ?_, ?_⟩, scheduler, passes⟩
  · have backlog := conserving.backlog
    rw [idled.record, busyCount_append_idleTrace]
    omega
  · have drained : ∀ tick ∈ List.range' kernel.machine.now (time - kernel.machine.now),
        Drained workload tick := by
      intro tick member
      obtain ⟨fromNow, toTime⟩ := List.mem_range'_1.mp member
      have come : ∀ job ∈ woken, job.arrival ≤ tick := fun job inWoken =>
        Nat.le_trans (conserving.come job inWoken).1 fromNow
      have due : ∀ job ∈ awaited, tick < job.arrival := fun job inAwaited => by
        have notBefore := before job inAwaited
        omega
      exact (drained_iff conserving.split come due).mpr (Nat.le_trans free fromNow)
    have allTicks : next.machine.now = kernel.machine.now + (time - kernel.machine.now) := by
      omega
    have allDrained : (List.range' kernel.machine.now (time - kernel.machine.now)).filter
        (fun tick => Drained workload tick) =
          List.range' kernel.machine.now (time - kernel.machine.now) :=
      List.filter_eq_self.mpr fun tick member => decide_eq_true (drained tick member)
    rw [idled.record, idleTicks_append_idleTrace, conserving.idle, allTicks, List.range_add,
      List.filter_append, ← List.range'_eq_map_range, allDrained]

end Conserving

end CpuScheduling.Kernel
