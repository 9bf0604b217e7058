import CpuScheduling.Proofs.Simulation.Aging
import CpuScheduling.Proofs.Simulation.FinalBooks
import CpuScheduling.Proofs.Simulation.SliceLengths

/-!
Aging in closed form.  The priority of a job that waits is what it was submitted with and one step
for each slice of another that has ended since, as far as the word allows.
-/

namespace CpuScheduling

/-- The priority of a job that waits while these slices are over. -/
def agedPriority (step : Nat) (slices : List Slice) (job : Job) : Nat :=
  min (prioritySize - 1) (job.priority + step * turns slices job)

section Standing

variable {step : Nat} {slices : List Slice} {slice : Slice} {job : Job}

theorem agedPriority_le (step : Nat) (slices : List Slice) (job : Job) :
    agedPriority step slices job ≤ prioritySize - 1 :=
  Nat.min_le_left _ _

theorem agedPriority_of_ended (small : job.priority ≤ prioritySize - 1)
    (ended : ∀ slice ∈ slices, slice.stop ≤ waitingSince slices job) :
    agedPriority step slices job = job.priority := by
  rw [agedPriority, turns_eq_zero ended, Nat.mul_zero, Nat.add_zero, Nat.min_eq_right small]

theorem agedPriority_concat (other : slice.job ≠ job.id)
    (later : waitingSince slices job < slice.stop) :
    agedPriority step (slices ++ [slice]) job =
      min (agedPriority step slices job + step) (prioritySize - 1) := by
  rw [agedPriority, agedPriority, turns_concat_of_ne other later, Nat.mul_succ]
  omega

theorem Scheduler.effectivePriority_afterSlice (quantum step : Nat) {job : Job}
    (small : job.effectivePriority ≤ prioritySize - 1) :
    ((agingRoundRobin quantum step).afterSlice job).effectivePriority =
      min (job.effectivePriority + step) (prioritySize - 1) := by
  simp only [afterSlice]
  split
  next noStep =>
    subst noStep
    exact (Nat.min_eq_left small).symm
  next => rfl

end Standing

theorem Machine.Booked.priority_le {workload : List Spec} {clock id : Nat} {machine : Machine}
    {job : Job} (booked : machine.Booked workload clock) (present : machine.job? id = some job) :
    job.priority ≤ prioritySize - 1 := by
  obtain ⟨_, spec, _, isBlank⟩ := Job.mem_ofWorkload.mp (booked.blank_eq present).2
  have same : job.priority = spec.priority.toNat := congrArg Job.priority isBlank.symm
  have inWord := spec.priority.toNat_lt
  simp only [prioritySize, UInt32.size]
  omega

structure Machine.Raised (step : Nat) (ended : List Slice) (machine : Machine) : Prop where
  raised : ∀ id ∈ machine.ready.ids, ∀ job, machine.job? id = some job →
    job.effectivePriority = agedPriority step ended job
  since : ∀ id ∈ machine.ready.ids, ∀ job, machine.job? id = some job →
    waitingSince ended job ≤ machine.now

namespace Machine.Raised

variable {step quantum : Nat} {ended : List Slice} {machine next : Machine}

theorem of_same (raised : machine.Raised step ended) (ready : next.ready = machine.ready)
    (jobs : ∀ id ∈ machine.ready.ids, next.job? id = machine.job? id)
    (later : machine.now ≤ next.now) : next.Raised step ended where
  raised id waits job present := by
    rw [ready] at waits
    exact raised.raised id waits job ((jobs id waits).symm.trans present)
  since id waits job present := by
    rw [ready] at waits
    exact (raised.since id waits job ((jobs id waits).symm.trans present)).trans later

theorem join {joining : Nat} {found : Job} (raised : machine.Raised step ended)
    (joins : machine.Joins joining found next)
    (past : ∀ slice ∈ ended, slice.stop ≤ machine.now)
    (base : found.effectivePriority = found.priority) (small : found.priority ≤ prioritySize - 1)
    (since : waitingSince ended found = machine.now) : next.Raised step ended := by
  have joined : found.effectivePriority = agedPriority step ended found := by
    rw [base, agedPriority_of_ended small fun slice member => since ▸ past slice member]
  have waited {id : Nat} (waits : id ∈ next.ready.ids) (different : id ≠ joining) :
      id ∈ machine.ready.ids :=
    (List.mem_cons.mp (joins.queued.mem_iff.mp waits)).resolve_left different
  constructor
  · intro id waits job present
    rw [joins.jobs] at present
    split at present
    next =>
      cases present
      exact joined
    next different => exact raised.raised id (waited waits different) job present
  · intro id waits job present
    rw [joins.jobs] at present
    rw [joins.now]
    split at present
    next =>
      cases present
      exact Nat.le_of_eq since
    next different => exact raised.since id (waited waits different) job present

theorem leave {leaving : Nat} {found started : Job} (raised : machine.Raised step ended)
    (leaves : machine.Leaves leaving found started next) : next.Raised step ended := by
  have stays {id : Nat} (waits : id ∈ next.ready.ids) :
      id ∈ machine.ready.ids ∧ next.job? id = machine.job? id := by
    refine ⟨leaves.queued.mem_iff.mpr (List.mem_cons_of_mem leaving waits), leaves.others ?_⟩
    rintro rfl
    exact leaves.absent waits
  constructor
  · intro id waits job present
    obtain ⟨waited, same⟩ := stays waits
    exact raised.raised id waited job (same.symm.trans present)
  · intro id waits job present
    obtain ⟨waited, same⟩ := stays waits
    rw [leaves.now]
    exact raised.since id waited job (same.symm.trans present)

theorem age {holder start : Nat} (raised : machine.Raised step ended)
    (named : ∀ id job, machine.job? id = some job → job.id = id)
    (absent : holder ∉ machine.ready.ids) (later : next.now = machine.now + 1)
    (queued : next.ready.ids.Perm machine.ready.ids)
    (aged : ∀ id ∈ machine.ready.ids, next.job? id =
      (machine.job? id).map (Scheduler.agingRoundRobin quantum step).afterSlice) :
    next.Raised step (ended ++ [⟨holder, start, next.now⟩]) := by
  have waited {id : Nat} {job : Job} (waits : id ∈ next.ready.ids)
      (present : next.job? id = some job) : ∃ before, machine.job? id = some before ∧
        id ∈ machine.ready.ids ∧ holder ≠ before.id ∧
        (Scheduler.agingRoundRobin quantum step).afterSlice before = job := by
    have inQueue := queued.mem_iff.mp waits
    rw [aged id inQueue, Option.map_eq_some_iff] at present
    obtain ⟨before, isBefore, isJob⟩ := present
    refine ⟨before, isBefore, inQueue, ?_, isJob⟩
    rw [named id before isBefore]
    exact fun same => absent (same ▸ inQueue)
  constructor
  · intro id waits job present
    obtain ⟨before, isBefore, inQueue, other, rfl⟩ := waited waits present
    have standing := raised.raised id inQueue before isBefore
    have since := raised.since id inQueue before isBefore
    have small : before.effectivePriority ≤ prioritySize - 1 :=
      standing ▸ agedPriority_le step ended before
    have gained := Scheduler.effectivePriority_afterSlice quantum step small
    obtain ⟨priority, isAged⟩ :=
      Scheduler.exists_afterSlice_eq (.agingRoundRobin quantum step) before
    have same : agedPriority step (ended ++ [⟨holder, start, next.now⟩])
        ((Scheduler.agingRoundRobin quantum step).afterSlice before) =
          agedPriority step (ended ++ [⟨holder, start, next.now⟩]) before := by
      rw [isAged]
      rfl
    rw [gained, same, agedPriority_concat other (show _ < next.now by omega), standing]
  · intro id waits job present
    obtain ⟨before, isBefore, inQueue, other, rfl⟩ := waited waits present
    have since := raised.since id inQueue before isBefore
    obtain ⟨priority, isAged⟩ :=
      Scheduler.exists_afterSlice_eq (.agingRoundRobin quantum step) before
    have same : waitingSince (ended ++ [⟨holder, start, next.now⟩])
        ((Scheduler.agingRoundRobin quantum step).afterSlice before) =
          waitingSince (ended ++ [⟨holder, start, next.now⟩]) before := by
      rw [isAged]
      rfl
    rw [same, waitingSince_concat_of_ne other]
    omega

end Machine.Raised

theorem Scheduler.gains_of_endSlice {scheduler : Scheduler} {machine spent next : Machine}
    (ends : scheduler.endSlice spent = .ok next) (nodup : machine.ready.ids.Nodup)
    (ready : spent.ready = machine.ready)
    (jobs : ∀ id ∈ machine.ready.ids, spent.job? id = machine.job? id) :
    next.ready.ids.Perm machine.ready.ids ∧
      (∀ id ∈ machine.ready.ids, next.job? id = (machine.job? id).map scheduler.afterSlice) ∧
      next.events = spent.events ∧ next.cpu = spent.cpu := by
  rw [← ready] at nodup
  obtain ⟨⟨_, _, rfl⟩, queued, aged⟩ := endSlice_ok nodup ends
  rw [ready] at queued aged
  refine ⟨queued, fun id waits => ?_, rfl, rfl⟩
  rw [aged, if_pos waits, jobs id waits]

/-- What a tick under aging does to the queue: nothing, or a slice ends and all that wait gain. -/
theorem Machine.queue_of_tick {quantum step : Nat} {machine worked closed : Machine} {work : Work}
    (nodup : machine.ready.ids.Nodup)
    (absent : ∀ id, machine.cpu.current = some id → id ∉ machine.ready.ids)
    (unexpired : machine.cpu.sliceExpired = false)
    (works : machine.recordTrace.runCurrent = .ok (work, worked))
    (closes : (Scheduler.agingRoundRobin quantum step).closeTick work worked = .ok closed) :
    (closed.ready = machine.ready ∧
        (∀ id ∈ machine.ready.ids, closed.job? id = machine.job? id) ∧
        closed.cpu.sliceExpired = false ∧
        (closed.events = machine.events ∨ closed.events = machine.events ++ [.cpuIdle 1])) ∨
      ∃ holder, machine.cpu.current = some holder ∧
        closed.ready.ids.Perm machine.ready.ids ∧
        (∀ id ∈ machine.ready.ids, closed.job? id =
          (machine.job? id).map (Scheduler.agingRoundRobin quantum step).afterSlice) ∧
        (closed.events = machine.events ∧ closed.cpu.sliceExpired = true ∨
          closed.events = machine.events ++ [.complete holder (machine.now + 1)] ∧
            closed.cpu.sliceExpired = false) := by
  rcases work_ok works with ⟨_, rfl, rfl⟩ | ⟨holder, job, current, present, rest⟩
  · cases closes
    exact .inl ⟨rfl, fun _ _ => rfl, unexpired, .inr rfl⟩
  · have isPresent : machine.recorded.job? holder = some job := present
    have elsewhere (found : Job) : ∀ id ∈ machine.ready.ids,
        (machine.recorded.put holder found).job? id = machine.job? id := by
      intro id waits
      have different : id ≠ holder := fun same => absent holder current (same ▸ waits)
      exact (job?_put isPresent found id).trans (if_neg different)
    rcases rest with ⟨_, _, rfl, rfl⟩ | ⟨_, rfl, completed, _, rfl⟩
    · rcases Scheduler.closeTick_ok closes with
        ⟨rfl, _⟩ | ⟨⟨_, isCompleted⟩, _⟩ | ⟨_, _, _, _, _, ends⟩
      · exact .inl ⟨rfl, elsewhere _, unexpired, .inl rfl⟩
      · cases isCompleted
      · obtain ⟨queued, aged, events, cpu⟩ :=
          Scheduler.gains_of_endSlice ends nodup rfl (elsewhere _)
        exact .inr ⟨holder, current, queued, aged, .inl ⟨events, congrArg Cpu.sliceExpired cpu⟩⟩
    · rcases Scheduler.closeTick_ok closes with
        ⟨_, isIdle | ⟨_, isRan, _⟩⟩ | ⟨_, ends⟩ | ⟨_, _, isRan, _, _, _⟩
      · cases isIdle
      · cases isRan
      · obtain ⟨queued, aged, events, cpu⟩ :=
          Scheduler.gains_of_endSlice ends nodup rfl (elsewhere _)
        exact .inr ⟨holder, current, queued, aged, .inr ⟨events, congrArg Cpu.sliceExpired cpu⟩⟩
      · cases isRan

namespace Machine.Raised

open Slicing (after)

variable {workload : List Spec} {quantum step : Nat} {slicing : Slicing} {machine next : Machine}
  {news : List Event}

theorem requeueExpired (raised : machine.Raised step (slicing.seen machine).ended)
    (measured : slicing.Measured workload quantum machine)
    (orderly : machine.Orderly workload machine.now [])
    (plain : machine.Plain (.agingRoundRobin quantum step))
    (requeues : (Scheduler.agingRoundRobin quantum step).requeueExpired machine = .ok next)
    (told : next.events = machine.events ++ news) :
    next.Raised step ((stamped machine.now news).foldl after slicing).ended := by
  rcases Scheduler.requeueExpired_ok requeues with
    ⟨stays, rfl⟩ | ⟨id, job, ready, current, expired, present, absent, entered, rfl⟩
  · obtain rfl : news = [] := by simpa using told
    have unexpired := stays.elim measured.idle fun unexpired => unexpired
    rwa [Slicing.seen, if_neg (by simp [unexpired])] at raised
  · obtain rfl : [.sliceExpired id] = news := List.append_cancel_left told
    obtain ⟨start, going⟩ := measured.toCovers.exists_going current
    rw [Slicing.seen, if_pos expired] at raised
    have running := orderly.phase_of_current current present
    have own : job.id = id := (orderly.blank_eq present).1
    have base : job.effectivePriority = job.priority :=
      plain id job present (.inr (by simp [running]))
    have since : waitingSince (slicing.close machine.now).ended job = machine.now := by
      rw [Slicing.close_of_going going, waitingSince_concat_self own.symm]
    exact raised.join (Machine.joins_released present (by simp [running]) absent entered _)
      measured.toCovers.past_close base (orderly.priority_le present) since

theorem dispatch (raised : machine.Raised step slicing.ended)
    (dispatches : (Scheduler.agingRoundRobin quantum step).dispatch machine = .ok next)
    (told : next.events = machine.events ++ news) :
    next.Raised step ((stamped machine.now news).foldl after slicing).ended := by
  rcases Scheduler.dispatch_of_quantum? rfl dispatches with ⟨_, fills⟩ | ⟨_, rfl⟩
  · rcases Scheduler.fillCpu_ok fills with
      ⟨_, rfl⟩ | ⟨id, first, started, picked, absent, present, _, rfl⟩
    · obtain rfl : news = [] := by simpa using told
      exact raised
    · obtain rfl : [.dispatch id machine.cpu.last (machine.switchesTo id)] = news :=
        List.append_cancel_left told
      exact raised.leave (Machine.leaves_given picked present absent started)
  · obtain rfl : news = [] := by simpa using told
    exact raised

theorem work {worked closed : Machine} {work : Work} (raised : machine.Raised step slicing.ended)
    (measured : slicing.Measured workload quantum machine)
    (orderly : machine.Orderly workload machine.now [])
    (unexpired : machine.cpu.sliceExpired = false)
    (works : machine.recordTrace.runCurrent = .ok (work, worked))
    (closes : (Scheduler.agingRoundRobin quantum step).closeTick work worked = .ok closed)
    (isNext : next = (closed.advance 1).drainEvents.2) (later : next.now = machine.now + 1)
    (told : closed.events = machine.events ++ news) :
    next.Raised step (((stamped machine.now news).foldl after slicing).seen next).ended := by
  have sameExpired : next.cpu.sliceExpired = closed.cpu.sliceExpired := isNext ▸ rfl
  have sameReady : next.ready = closed.ready := isNext ▸ rfl
  have sameJobs : next.job? = closed.job? := isNext ▸ rfl
  rcases Machine.queue_of_tick orderly.placement.nodup (fun id => orderly.current_absent)
      unexpired works closes with
    ⟨ready, jobs, still, events⟩ | ⟨holder, current, queued, aged, ends⟩
  · have isSame : ((stamped machine.now news).foldl after slicing).seen next = slicing := by
      rw [Slicing.seen, if_neg (by simp [sameExpired, still])]
      rcases events with none | rests
      · obtain rfl : news = [] := by simpa [none] using told
        rfl
      · obtain rfl : [.cpuIdle 1] = news := List.append_cancel_left (rests.symm.trans told)
        rfl
    rw [isSame]
    exact raised.of_same (sameReady.trans ready) (fun id waits => sameJobs ▸ jobs id waits)
      (by omega)
  · obtain ⟨start, going⟩ := measured.toCovers.exists_going current
    have isClosed : ((stamped machine.now news).foldl after slicing).seen next =
        slicing.close next.now := by
      rcases ends with ⟨none, expired⟩ | ⟨completes, still⟩
      · obtain rfl : news = [] := by simpa [none] using told
        rw [Slicing.seen, if_pos (sameExpired.trans expired)]
        rfl
      · obtain rfl : [.complete holder (machine.now + 1)] = news :=
          List.append_cancel_left (completes.symm.trans told)
        rw [Slicing.seen, if_neg (by simp [sameExpired, still]), later]
        rfl
    rw [isClosed, Slicing.close_of_going going]
    exact raised.age (fun id job present => (orderly.blank_eq present).1)
      (orderly.current_absent current) later (sameReady ▸ queued) (sameJobs ▸ aged)

end Machine.Raised

end CpuScheduling
