import CpuScheduling.Proofs.Machine.Order

/-!
The operations of an orderly machine.  Each one succeeds where its caller keeps
to the rules, and says how the order of the machine moves on.
-/

namespace CpuScheduling.Machine

/-- A change that takes no time: no tick is recorded, no job finishes or arrives, no
slice runs out where waiting is fixed, and the CPU is given away at most `starts`
times. -/
structure Instant (starts : Nat) (before after : Machine) : Prop where
  now : after.now = before.now
  record : after.trace = before.trace
  fixesWaiting : after.fixesWaiting = before.fixesWaiting
  finished : after.finished = before.finished
  switches : after.switches ≤ before.switches + starts
  sliceUsed : after.cpu.sliceUsed ≤ before.cpu.sliceUsed
  sliceExpired : after.cpu.sliceExpired = true →
    before.cpu.sliceExpired = true ∨ before.fixesWaiting = false
  pending : ∀ id job, job.phase = .pending →
    (after.job? id = some job ↔ before.job? id = some job)

theorem expired_trans {before middle after : Machine}
    (early : middle.cpu.sliceExpired = true →
      before.cpu.sliceExpired = true ∨ before.fixesWaiting = false)
    (late : after.cpu.sliceExpired = true →
      middle.cpu.sliceExpired = true ∨ middle.fixesWaiting = false)
    (same : middle.fixesWaiting = before.fixesWaiting) (expired : after.cpu.sliceExpired = true) :
    before.cpu.sliceExpired = true ∨ before.fixesWaiting = false := by
  rcases late expired with middleExpired | slicing
  · exact early middleExpired
  · exact .inr (same ▸ slicing)

namespace Instant

theorem refl (machine : Machine) : Instant 0 machine machine :=
  ⟨rfl, rfl, rfl, rfl, Nat.le_refl _, Nat.le_refl _, .inl, fun _ _ _ => Iff.rfl⟩

theorem trans {starts more : Nat} {before middle after : Machine}
    (early : Instant starts before middle) (late : Instant more middle after) :
    Instant (starts + more) before after where
  now := late.now.trans early.now
  record := late.record.trans early.record
  fixesWaiting := late.fixesWaiting.trans early.fixesWaiting
  finished := late.finished.trans early.finished
  switches := by
    have earlySwitches := early.switches
    have lateSwitches := late.switches
    omega
  sliceUsed := Nat.le_trans late.sliceUsed early.sliceUsed
  sliceExpired := expired_trans early.sliceExpired late.sliceExpired early.fixesWaiting
  pending id job isPending := (late.pending id job isPending).trans (early.pending id job isPending)

theorem emit {starts : Nat} {before after : Machine} (change : Instant starts before after)
    (event : Event) : Instant starts before (after.emit event) :=
  ⟨change.now, change.record, change.fixesWaiting, change.finished, change.switches,
    change.sliceUsed, change.sliceExpired, change.pending⟩

theorem mono {starts more : Nat} {before after : Machine} (change : Instant starts before after)
    (bound : starts ≤ more) : Instant more before after :=
  { change with switches := Nat.le_trans change.switches (Nat.add_le_add_left bound _) }

end Instant

variable {workload : List Spec} {clock : Nat} {limbo : List Nat} {machine : Machine} {id : Nat}
  {old : Job}

theorem pending_put (present : machine.job? id = some old) (wasNot : old.phase ≠ .pending)
    {job : Job} (isNot : job.phase ≠ .pending) (other : Nat) (found : Job)
    (isPending : found.phase = .pending) :
    (machine.put id job).job? other = some found ↔ machine.job? other = some found := by
  rw [job?_put present]
  split
  next here =>
    subst here
    constructor
    · rintro ⟨⟩
      exact absurd isPending isNot
    · intro isOld
      cases present.symm.trans isOld
      exact absurd isPending wasNot
  next => exact Iff.rfl

theorem Instant.requeue (machine : Machine) (ready : ReadyQueue) :
    Instant 0 machine { machine with ready := ready } :=
  ⟨rfl, rfl, rfl, rfl, Nat.le_refl _, Nat.le_refl _, .inl, fun _ _ _ => Iff.rfl⟩

theorem Instant.reprioritize (present : machine.job? id = some old)
    (arrived : old.phase ≠ .pending) (effectivePriority : Nat) :
    Instant 0 machine (machine.put id { old with effectivePriority := effectivePriority }) :=
  ⟨rfl, rfl, rfl, rfl, Nat.le_refl _, Nat.le_refl _, .inl,
    pending_put present arrived arrived⟩

theorem phase?_put_of_phase (present : machine.job? id = some old) (job : Job) {phase : Phase}
    (isPhase : job.phase = phase) (other : Nat) :
    (machine.put id job).phase? other =
      if other = id then some phase else machine.phase? other := by
  rw [phase?_put present, isPhase]

/-- What a dispatch amounts to, whether or not it is a context switch. -/
theorem exists_start {started : Job} (idle : machine.cpu.current = none)
    (absent : id ∉ machine.ready.ids) (present : machine.job? id = some old)
    (booked : startBooks machine.fixesWaiting machine.now old = .ok started)
    (room : machine.switches + 1 < wordSize) :
    ∃ switches switched, switches ≤ machine.switches + 1 ∧
      machine.start id = .ok (Machine.emit
        { machine.put id started with
          switches := switches
          cpu := { current := some id, last := some id } }
        (.dispatch id machine.cpu.last switched)) := by
  cases switched : machine.cpu.last.isSome && machine.cpu.last != some id with
  | false =>
      refine ⟨machine.switches, false, Nat.le_succ _, ?_⟩
      simp [Machine.start, ensure, idle, absent, job_of_job? present, booked, switched, bind,
        Except.bind, pure, Except.pure, put]
  | true =>
      refine ⟨machine.switches + 1, true, Nat.le_refl _, ?_⟩
      have counted := increment_eq_ok_iff.mpr ⟨room, rfl⟩
      simp [Machine.start, ensure, idle, absent, job_of_job? present, booked, switched, counted,
        bind, Except.bind, pure, Except.pure]

namespace Orderly

theorem exists_job? (orderly : machine.Orderly workload clock (id :: limbo)) :
    ∃ job, machine.job? id = some job ∧ job.phase = .ready :=
  phase?_eq_some_iff.mp ((orderly.placement.mem_iff id).mp List.mem_cons_self)

theorem exists_current (orderly : machine.Orderly workload clock limbo)
    (current : machine.cpu.current = some id) :
    ∃ job, machine.job? id = some job ∧ job.phase = .running :=
  phase?_eq_some_iff.mp ((orderly.placement.current_iff id).mp current)

theorem phase_of_current {job : Job} (orderly : machine.Orderly workload clock limbo)
    (current : machine.cpu.current = some id) (present : machine.job? id = some job) :
    job.phase = .running := by
  obtain ⟨_, isCurrent, runs⟩ := orderly.exists_current current
  cases isCurrent.symm.trans present
  exact runs

theorem current_absent (orderly : machine.Orderly workload clock [])
    (current : machine.cpu.current = some id) : id ∉ machine.ready.ids := by
  intro queued
  have runs := (orderly.placement.current_iff id).mp current
  have waits := (orderly.placement.mem_iff id).mp queued
  simp [runs] at waits

theorem nobody_runs (orderly : machine.Orderly workload clock limbo)
    (idle : machine.cpu.current = none) : ∀ id, machine.phase? id ≠ some .running := by
  intro id isRunning
  have onCpu := (orderly.placement.current_iff id).mpr isRunning
  simp [idle] at onCpu

theorem current_of_allFinished (orderly : machine.Orderly workload clock limbo)
    (finished : machine.allFinished = true) : machine.cpu.current = none := by
  cases current : machine.cpu.current with
  | none => rfl
  | some id =>
      obtain ⟨job, present, isRunning⟩ := orderly.exists_current current
      have isFinished := orderly.allFinished_iff.mp finished job (mem_jobs_of_job? present)
      cases isRunning.symm.trans isFinished

theorem ids_of_allFinished (orderly : machine.Orderly workload clock [])
    (finished : machine.allFinished = true) : machine.ready.ids = [] := by
  refine List.eq_nil_iff_forall_not_mem.mpr fun id queued => ?_
  obtain ⟨job, present, isReady⟩ :=
    phase?_eq_some_iff.mp ((orderly.placement.mem_iff id).mp queued)
  have isFinished := orderly.allFinished_iff.mp finished job (mem_jobs_of_job? present)
  cases isReady.symm.trans isFinished

theorem running_unique (orderly : machine.Orderly workload clock limbo)
    (current : machine.cpu.current = some id) :
    ∀ other, machine.phase? other = some .running → other = id := by
  intro other isRunning
  have onCpu := (orderly.placement.current_iff other).mpr isRunning
  exact Option.some.inj (onCpu.symm.trans current)

theorem requeue {ready : ReadyQueue} {others : List Nat}
    (orderly : machine.Orderly workload clock limbo)
    (same : (others ++ ready.ids).Perm (limbo ++ machine.ready.ids)) :
    { machine with ready := ready }.Orderly workload clock others where
  toBooked := orderly.toBooked.of_same rfl rfl rfl rfl
  placement := orderly.placement.perm same

theorem reprioritize (orderly : machine.Orderly workload clock limbo)
    (present : machine.job? id = some old) (effectivePriority : Nat) :
    (machine.put id { old with effectivePriority := effectivePriority }).Orderly
      workload clock limbo where
  toBooked := orderly.toBooked.put present
    ((orderly.balanced id old present).age effectivePriority) rfl Iff.rfl
  placement := orderly.placement.congr fun other => by
    rw [phase?_put present]
    split
    next here => rw [here, phase?_of_job? present]
    next => rfl

theorem pop (orderly : machine.Orderly workload clock limbo)
    (picked : machine.ready.peek = some id) :
    machine.pop.2.Orderly workload clock (id :: limbo) := by
  apply orderly.requeue
  have left := ReadyQueue.cons_ids_tail_perm picked
  exact (List.perm_middle.symm.trans (left.append_left limbo))

theorem enqueue (orderly : machine.Orderly workload clock (id :: limbo)) (rank : Rank) :
    ∃ ready, machine.enqueue id rank = .ok { machine with ready := ready } ∧
      { machine with ready := ready }.Orderly workload clock limbo := by
  obtain ⟨job, present, isReady⟩ := orderly.exists_job?
  have absent : id ∉ machine.ready.ids := fun queued =>
    (List.nodup_cons.mp orderly.placement.nodup).1 (List.mem_append_right limbo queued)
  obtain ⟨pushed, entered⟩ := ReadyQueue.exists_push absent rank
  refine ⟨pushed, ?_, orderly.requeue ?_⟩
  · simp [Machine.enqueue, ensure, absent, job_of_job? present, isReady, entered, bind,
      Except.bind, pure, Except.pure]
  · have enters := (ReadyQueue.ids_push_perm entered).append_left limbo
    exact enters.trans List.perm_middle

theorem arrive (orderly : machine.Orderly workload clock limbo)
    (present : machine.job? id = some old) (isPending : old.phase = .pending)
    (arrived : old.arrival ≤ clock) :
    machine.arrive id =
        .ok ((machine.put id { old with phase := .ready }).emit (.arrival id)) ∧
      ((machine.put id { old with phase := .ready }).emit (.arrival id)).Orderly
        workload clock (id :: limbo) := by
  constructor
  · simp [Machine.arrive, job_of_job? present, ensure, isPending, bind, Except.bind, pure,
      Except.pure]
  · have balanced := (orderly.balanced id old present).arrive isPending arrived
    have booked := orderly.toBooked.put present balanced rfl (by simp [isPending])
    refine ⟨booked.of_same rfl rfl rfl rfl, ?_⟩
    exact orderly.placement.arrive (isPending ▸ phase?_of_job? present)
      (phase?_put_of_phase present _ rfl)

theorem start (orderly : machine.Orderly workload clock (id :: limbo))
    (shown : machine.now = clock) (idle : machine.cpu.current = none)
    (room : machine.switches + 1 < wordSize) :
    ∃ next, machine.start id = .ok next ∧ next.Orderly workload clock limbo ∧
      Instant 1 machine next ∧ next.cpu.current = some id := by
  subst shown
  obtain ⟨job, present, isReady⟩ := orderly.exists_job?
  have absent : id ∉ machine.ready.ids := fun queued =>
    (List.nodup_cons.mp orderly.placement.nodup).1 (List.mem_append_right limbo queued)
  obtain ⟨started, booked, balanced, isRunning, same⟩ :=
    (orderly.balanced id job present).startBooks isReady
  obtain ⟨switches, switched, bounded, dispatched⟩ :=
    exists_start idle absent present booked room
  refine ⟨_, dispatched, ⟨?_, ?_⟩, ?_, rfl⟩
  · have kept := orderly.toBooked.put present balanced same (by simp [isRunning, isReady])
    exact kept.of_same rfl rfl rfl rfl
  · exact (idle ▸ orderly.placement).start (phase?_put_of_phase present started isRunning)
  · refine ⟨rfl, rfl, rfl, rfl, bounded, Nat.zero_le _, by simp [Machine.emit], ?_⟩
    exact pending_put present (by simp [isReady]) (by simp [isRunning])

theorem release (orderly : machine.Orderly workload clock limbo)
    (current : machine.cpu.current = some id) (slicing : machine.fixesWaiting = false)
    (traced : heldTicks machine.trace id ≠ []) :
    ∃ next, machine.release id = .ok next ∧ next.Orderly workload clock (id :: limbo) ∧
      Instant 0 machine next ∧ next.cpu.current = none := by
  obtain ⟨job, present, isRunning⟩ := orderly.exists_current current
  have balanced := orderly.balanced id job present
  rw [slicing] at balanced
  have released := balanced.release isRunning traced
  rw [← slicing] at released
  refine ⟨{ machine.put id { job with phase := .ready } with
    cpu := { last := machine.cpu.last } }, ?_, ⟨?_, ?_⟩, ?_, rfl⟩
  · simp [Machine.release, job_of_job? present, bind, Except.bind, pure, Except.pure, Machine.put]
  · exact (orderly.toBooked.put present released rfl (by simp [isRunning])).of_same
      rfl rfl rfl rfl
  · exact (current ▸ orderly.placement).release (phase?_put_of_phase present _ rfl)
  · refine ⟨rfl, rfl, rfl, rfl, Nat.le_refl _, Nat.zero_le _, by simp, ?_⟩
    exact pending_put present (by simp [isRunning]) (by simp)

theorem emit (orderly : machine.Orderly workload clock limbo) (event : Event) :
    (machine.emit event).Orderly workload clock limbo :=
  ⟨orderly.toBooked.of_same rfl rfl rfl rfl, orderly.placement⟩

theorem preempt (orderly : machine.Orderly workload clock limbo)
    (current : machine.cpu.current = some id) (slicing : machine.fixesWaiting = false)
    (traced : heldTicks machine.trace id ≠ []) (displacing : Nat) :
    ∃ next, machine.preempt displacing = .ok (some id, next) ∧
      next.Orderly workload clock (id :: limbo) ∧ Instant 0 machine next ∧
      next.cpu.current = none := by
  obtain ⟨next, released, order, change, idle⟩ := orderly.release current slicing traced
  refine ⟨next.emit (.preempt id displacing), ?_, order.emit _, change.emit _, idle⟩
  simp [Machine.preempt, current, released, bind, Except.bind, pure, Except.pure]

theorem expireSlice (orderly : machine.Orderly workload clock limbo)
    (current : machine.cpu.current = some id) (expired : machine.cpu.sliceExpired = true)
    (slicing : machine.fixesWaiting = false) (traced : heldTicks machine.trace id ≠ []) :
    ∃ next, machine.expireSlice = .ok (some id, next) ∧
      next.Orderly workload clock (id :: limbo) ∧ Instant 0 machine next ∧
      next.cpu.current = none := by
  obtain ⟨next, released, order, change, idle⟩ := orderly.release current slicing traced
  refine ⟨next.emit (.sliceExpired id), ?_, order.emit _, change.emit _, idle⟩
  simp [Machine.expireSlice, current, expired, released, bind, Except.bind, pure, Except.pure]

end Orderly

theorem job?_ofWorkload {ready : ReadyQueue} {fixesWaiting : Bool} {job : Job}
    (present : (ofWorkload workload ready fixesWaiting).job? id = some job) :
    ∃ spec ∈ workload, job = Job.ofSpec id spec := by
  cases id with
  | zero => simp [job?] at present
  | succ index =>
      simp only [job?, ofWorkload, Job.getElem?_ofWorkload, Option.map_eq_some_iff] at present
      obtain ⟨spec, found, rfl⟩ := present
      exact ⟨spec, List.mem_of_getElem? found, rfl⟩

theorem ofWorkload_settled (positive : ∀ spec ∈ workload, 0 < spec.service) {ready : ReadyQueue}
    (empty : ready.ids = []) (fixesWaiting : Bool) :
    (ofWorkload workload ready fixesWaiting).Settled workload := by
  have allPending : ∀ id phase, (ofWorkload workload ready fixesWaiting).phase? id = some phase →
      phase = .pending := by
    intro id phase isPhase
    obtain ⟨job, present, rfl⟩ := phase?_eq_some_iff.mp isPhase
    obtain ⟨spec, _, rfl⟩ := job?_ofWorkload present
    rfl
  have noneFinished : (Job.ofWorkload workload).countP (·.phase = .finished) = 0 := by
    apply List.countP_eq_zero.mpr
    intro job member
    simp [Job.phase_of_mem_ofWorkload member]
  refine ⟨⟨⟨Job.map_blank_ofWorkload workload, ?_, fun _ _ => rfl, .empty, noneFinished.symm⟩, ?_⟩,
    rfl, ?_⟩
  · intro id job present
    obtain ⟨spec, member, rfl⟩ := job?_ofWorkload present
    exact .ofSpec (positive spec member)
  · constructor
    · intro id
      simp only [ofWorkload, empty, List.append_nil, List.not_mem_nil, false_iff]
      exact fun isReady => by cases allPending id _ isReady
    · simp [ofWorkload, empty]
    · intro id
      simp only [ofWorkload, reduceCtorEq, false_iff]
      exact fun isRunning => by cases allPending id _ isRunning
  · simp [ofWorkload]

theorem Settled.drainEvents (settled : machine.Settled workload) :
    machine.drainEvents.2.Settled workload :=
  ⟨⟨settled.toBooked.of_same rfl rfl rfl rfl, settled.placement⟩, settled.elapsed, settled.traced⟩

end CpuScheduling.Machine
