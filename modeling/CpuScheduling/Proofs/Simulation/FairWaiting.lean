import CpuScheduling.Proofs.Simulation.SliceTracking

/-!
What the slices of a run and the machine say about the waits of one job: all of them
have been bounded, and so is the one that goes on.  Each lemma is about one kind of
change of the machine.
-/

namespace CpuScheduling

structure Fair (workload : List Spec) (quantum step : Nat) (job : Job) (slicing : Slicing)
    (machine : Machine) : Prop
    extends Tracked quantum slicing machine, machine.Prioritized slicing.ended where
  expired : machine.cpu.sliceExpired = true → machine.cpu.current = some job.id →
    waitingSince slicing.ended job = machine.now
  waited : ∀ period ∈ waitingPeriods slicing.ended job,
    period.2 ≤ slicing.latest machine.now ∧ Bounded workload quantum step slicing.ended job period
  running : ∀ start, slicing.going = some (job.id, start) →
    Bounded workload quantum step slicing.ended job (waitingSince slicing.ended job, start)
  waiting : job.id ∈ machine.ready.ids → Waits workload quantum step slicing machine job

variable {workload : List Spec} {quantum step : Nat} {job : Job} {slicing : Slicing}
  {machine next : Machine}

/-- Whoever waits and whoever has a slice are two jobs of the workload. -/
theorem Tracked.inProgress_lt {clock id : Nat} (tracked : Tracked quantum slicing machine)
    (orderly : machine.Orderly workload clock []) (waits : id ∈ machine.ready.ids) :
    slicing.inProgress + 1 ≤ workload.length := by
  cases going : slicing.going with
  | none =>
      obtain ⟨job, present, _⟩ :=
        Machine.phase?_eq_some_iff.mp ((orderly.placement.mem_iff id).mp waits)
      have known := List.mem_range'_1.mp (orderly.toBooked.mem_range present)
      have noTurn := Slicing.inProgress_of_idle going
      omega
  | some slice =>
      have isGoing := tracked.going
      rw [going, Option.map_some] at isGoing
      split at isGoing
      next => cases isGoing
      next =>
        have room := orderly.length_ids_lt isGoing.symm
        have oneTurn := Slicing.inProgress_of_going going
        have somebody := List.length_pos_of_mem waits
        omega

namespace Fair

theorem join {clock joining : Nat} {found : Job}
    (fair : Fair workload quantum step job slicing machine) (grows : 0 < step)
    (positive : 0 < quantum) (submitted : job ∈ Job.ofWorkload workload)
    (booked : machine.Booked workload clock) (nextOrder : next.Orderly workload clock [])
    (joins : machine.Joins joining found next)
    (since : joining = job.id → waitingSince slicing.ended job = machine.now)
    (cpu : next.cpu = machine.cpu ∨ slicing.going = none ∧ next.cpu = { last := machine.cpu.last }) :
    Fair workload quantum step job slicing next := by
  have low := fair.base joining found joins.present joins.offQueue
  have sameNow := joins.now
  have notEarlier := Nat.le_of_eq sameNow.symm
  have tracked : Tracked quantum slicing next := by
    rcases cpu with same | ⟨resting, reset⟩
    · exact fair.of_same same notEarlier
    · exact fair.reset positive resting reset notEarlier
  have prioritized : next.Prioritized slicing.ended :=
    fair.toPrioritized.put joins.jobs (by simp) (by simp)
  refine ⟨tracked, prioritized, ?_, sameNow ▸ fair.waited, fair.running, ?_⟩
  · rcases cpu with same | ⟨_, reset⟩
    · rw [same, sameNow]
      exact fair.expired
    · simp [reset]
  · intro waits
    by_cases isJob : job.id = joining
    · subst isJob
      have several := tracked.inProgress_lt nextOrder waits
      refine Waits.enter (sameNow ▸ since rfl) tracked.ended ?_ several
      intro held isHeld
      rw [joins.jobs, if_pos rfl, Option.some.injEq] at isHeld
      subst isHeld
      exact low.trans (booked.priority_eq submitted joins.present)
    · have waited : job.id ∈ machine.ready.ids := by
        simpa [isJob] using joins.queued.mem_iff.mp waits
      refine (fair.waiting waited).join grows joins (low ▸ booked.priority_le_top joins.present)
        isJob ?_
      rcases cpu with same | ⟨resting, _⟩
      · rw [same]
      · rw [Slicing.inProgress_of_idle resting, Nat.zero_mul, Nat.zero_mul]

theorem rests (fair : Fair workload quantum step job slicing machine)
    (nobody : machine.cpu.current = none) (empty : machine.ready.ids = [])
    (jobs : next.jobs = machine.jobs) (ready : next.ready = machine.ready)
    (cpu : next.cpu = machine.cpu) (later : machine.now ≤ next.now) :
    Fair workload quantum step job slicing next := by
  have sameJobs : next.job? = machine.job? := by
    funext id
    cases id <;> simp [Machine.job?, jobs]
  have prioritized : next.Prioritized slicing.ended := by
    refine ⟨?_, sameJobs ▸ fair.base⟩
    intro slice member
    rw [Machine.phase?, sameJobs]
    exact fair.started slice member
  have resting : slicing.going = none := by
    simpa [nobody] using fair.going
  refine ⟨fair.of_same cpu later, prioritized, ?_, ?_, fair.running, ?_⟩
  · intro _ current
    rw [cpu, nobody] at current
    cases current
  · intro period member
    obtain ⟨past, bounded⟩ := fair.waited period member
    simp only [Slicing.latest, resting, Option.elim_none] at past ⊢
    exact ⟨past.trans later, bounded⟩
  · intro waits
    simp [ready, empty] at waits

theorem start {clock leaving : Nat} {first started : Job}
    (fair : Fair workload quantum step job slicing machine) (positive : 0 < quantum)
    (unsaturated : job.priority + step * turnLimit workload step job ≤ prioritySize - 1)
    (submitted : job ∈ Job.ofWorkload workload) (booked : machine.Booked workload clock)
    (nextOrder : next.Orderly workload clock []) (nobody : machine.cpu.current = none)
    (leaves : machine.Leaves leaving first started next)
    (front : ∀ found, machine.job? job.id = some found → job.id ∈ machine.ready.ids →
      found.effectivePriority ≤ prioritySize - 1 →
      found.effectivePriority ≤ first.effectivePriority)
    (isRunning : started.phase = .running)
    (restored : started.effectivePriority = started.priority)
    (cpu : next.cpu = { current := some leaving, last := some leaving }) :
    Fair workload quantum step job { slicing with going := some (leaving, machine.now) } next := by
  have resting : slicing.going = none := by
    simpa [nobody] using fair.going
  have isFirst : leaving ∈ machine.ready.ids := leaves.queued.mem_iff.mpr List.mem_cons_self
  have tracked := fair.toTracked.start positive leaves.now cpu
  have prioritized : next.Prioritized slicing.ended :=
    fair.toPrioritized.put leaves.jobs (by simp [isRunning]) fun _ => restored
  refine ⟨tracked, prioritized, by simp [cpu], ?_, ?_, ?_⟩
  · intro period member
    have before := fair.waited period member
    rw [Slicing.latest, resting, Option.elim_none] at before
    exact before
  · intro start going
    simp only [Option.some.injEq, Prod.mk.injEq] at going
    obtain ⟨rfl, rfl⟩ := going
    exact (fair.waiting isFirst).bounded resting
  · intro waits
    have different : leaving ≠ job.id := fun same => leaves.absent (same ▸ waits)
    have waited : job.id ∈ machine.ready.ids :=
      leaves.queued.mem_iff.mpr (List.mem_cons_of_mem leaving waits)
    have waiting := fair.waiting waited
    obtain ⟨found, isFound, _⟩ := booked.exists_submitted submitted
    have small := waiting.le_word unsaturated isFound
    have room := nextOrder.length_ids_lt (show next.cpu.current = some leaving by rw [cpu])
    have somebody := List.length_pos_of_mem waits
    exact waiting.overtaken resting leaves isFound (front found isFound waited small) different
      (by omega) machine.now

theorem goOn {clock holder start : Nat} {served : Job}
    (fair : Fair workload quantum step job slicing machine)
    (orderly : machine.Orderly workload clock [])
    (going : slicing.going = some (holder, start)) (current : machine.cpu.current = some holder)
    (unexpired : machine.cpu.sliceExpired = false) (serves : machine.Serves holder served next)
    (later : next.now = machine.now + 1)
    (cpu : next.cpu = { machine.cpu with sliceUsed := machine.cpu.sliceUsed + 1 })
    (left : machine.cpu.sliceUsed + 1 < quantum) :
    Fair workload quantum step job slicing next := by
  have tracked : Tracked quantum slicing next := fair.toTracked.goOn cpu left (by omega)
  have prioritized : next.Prioritized slicing.ended :=
    fair.toPrioritized.put serves.jobs serves.started fun _ => serves.base
  refine ⟨tracked, prioritized, by simp [cpu, unexpired], ?_, fair.running, ?_⟩
  · intro period member
    have before := fair.waited period member
    simp only [Slicing.latest, going, Option.elim_some] at before ⊢
    exact before
  · intro waits
    rw [serves.ready] at waits
    have absent := orderly.current_absent current
    have different : job.id ≠ holder := fun same => absent (same ▸ waits)
    have others : ∀ other, other ≠ holder → next.job? other = machine.job? other :=
      fun other elsewhere => (serves.jobs other).trans (if_neg elsewhere)
    exact (fair.waiting waits).goOn (Slicing.inProgress_of_going going) later (by rw [cpu])
      serves.ready others absent different

theorem waited_concat {holder start now : Nat}
    (fair : Fair workload quantum step job slicing machine)
    (going : slicing.going = some (holder, start)) (later : machine.now ≤ now) :
    ∀ period ∈ waitingPeriods (slicing.ended ++ [⟨holder, start, now⟩]) job,
      period.2 ≤ now ∧
        Bounded workload quantum step (slicing.ended ++ [⟨holder, start, now⟩]) job period := by
  have begun := (fair.begun holder start going).trans later
  have past := fair.waited
  simp only [Slicing.latest, going, Option.elim_some] at past
  intro period member
  by_cases own : holder = job.id
  · rw [waitingPeriods_concat_self own] at member
    rcases List.mem_append.mp member with before | last
    · obtain ⟨early, bounded⟩ := past period before
      exact ⟨early.trans begun, bounded.concat (.inl own)⟩
    · cases List.mem_singleton.mp last
      exact ⟨begun, (fair.running start (own ▸ going)).concat (.inl own)⟩
  · rw [waitingPeriods_concat_of_ne own] at member
    obtain ⟨early, bounded⟩ := past period member
    exact ⟨early.trans begun, bounded.concat (.inr early)⟩

theorem endSlice {clock holder start : Nat} {served : Job}
    (fair : Fair workload quantum step job slicing machine) (positive : 0 < quantum)
    (unsaturated : job.priority + step * turnLimit workload step job ≤ prioritySize - 1)
    (orderly : machine.Orderly workload clock [])
    (going : slicing.going = some (holder, start)) (current : machine.cpu.current = some holder)
    (unexpired : machine.cpu.sliceExpired = false) (later : next.now = machine.now + 1)
    (queued : next.ready.ids.Perm machine.ready.ids)
    (jobs : ∀ other, next.job? other =
      if other ∈ machine.ready.ids then (machine.job? other).map (·.aged step)
      else if other = holder then some served else machine.job? other)
    (hasStarted : served.phase ≠ .pending) (base : served.effectivePriority = served.priority)
    (cpu : next.cpu.current = some holder ∧ next.cpu.sliceExpired = true ∨
      next.cpu = { last := machine.cpu.last }) :
    Fair workload quantum step job { ended := slicing.ended ++ [⟨holder, start, next.now⟩] }
      next := by
  have absent := orderly.current_absent current
  have used := fair.used unexpired
  have ages : machine.Ages step next :=
    { now := later, queued := queued, aged := fun other waits => (jobs other).trans (if_pos waits) }
  have isHolder : next.job? holder = some served := by
    rw [jobs, if_neg absent, if_pos rfl]
  have prioritized : next.Prioritized (slicing.ended ++ [⟨holder, start, next.now⟩]) := by
    have ready : ∀ other ∈ machine.ready.ids, machine.phase? other = some .ready :=
      fun other => (orderly.placement.mem_iff other).mp
    refine (fair.toPrioritized.change ready jobs hasStarted fun _ => base).concat ?_
    rw [Machine.phase?_of_job? isHolder]
    simpa using hasStarted
  refine ⟨fair.toTracked.endSlice positive (by omega) cpu, prioritized, ?_,
    fair.waited_concat going (by omega), by simp, ?_⟩
  · intro expired stays
    rcases cpu with ⟨same, _⟩ | reset
    · have own : holder = job.id := Option.some.inj (same.symm.trans stays)
      exact waitingSince_concat_self own
    · simp [reset] at expired
  · intro waits
    have waited : job.id ∈ machine.ready.ids := queued.mem_iff.mp waits
    have different : holder ≠ job.id := fun same => absent (same ▸ waited)
    exact (fair.waiting waited).gain unsaturated (Slicing.inProgress_of_going going)
      used ages waited different (orderly.length_ids_lt current)

end Fair

end CpuScheduling
