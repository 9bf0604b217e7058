import CpuScheduling.Proofs.Simulation.BegunSlices
import CpuScheduling.Proofs.Simulation.ShortestFirst

/-!
How long slices are.  Under a policy with a quantum, every slice lasts for the quantum or for
what its job has left, whichever is less.  So the slices of a job are as long as its service
divided into quanta, and there are as many.
-/

namespace CpuScheduling

/-- So many ticks in whole quanta, and what remains of them. -/
def portions (quantum left : Nat) : List Nat :=
  List.replicate (left / quantum) quantum ++ if left % quantum = 0 then [] else [left % quantum]

section Portions

variable {quantum left : Nat}

@[simp]
theorem portions_zero (quantum : Nat) : portions quantum 0 = [] := by
  simp [portions]

theorem portions_cons (positive : 0 < quantum) (some : 0 < left) :
    portions quantum left = min quantum left :: portions quantum (left - min quantum left) := by
  rcases Nat.lt_or_ge left quantum with short | long
  · have last : left % quantum ≠ 0 := by
      rw [Nat.mod_eq_of_lt short]
      exact Nat.ne_of_gt some
    rw [Nat.min_eq_right (Nat.le_of_lt short), Nat.sub_self, portions_zero, portions, if_neg last,
      Nat.div_eq_of_lt short, Nat.mod_eq_of_lt short, List.replicate_zero, List.nil_append]
  · rw [Nat.min_eq_left long, portions, portions, Nat.div_eq_sub_div positive long,
      Nat.mod_eq_sub_mod long, List.replicate_succ, List.cons_append]

theorem sum_portions (quantum left : Nat) : (portions quantum left).sum = left := by
  have whole := Nat.div_add_mod left quantum
  rw [portions, List.sum_append, List.sum_replicate_nat, Nat.mul_comm]
  split
  next none => rwa [none] at whole
  next => simpa using whole

theorem length_portions (positive : 0 < quantum) (left : Nat) :
    (portions quantum left).length = (left + quantum - 1) / quantum := by
  have whole := Nat.div_add_mod left quantum
  have short := Nat.mod_lt left positive
  rw [portions, List.length_append, List.length_replicate]
  refine (Nat.div_eq_of_lt_le ?_ ?_).symm
  all_goals
    split
    all_goals
      simp only [List.length_nil, List.length_singleton, Nat.add_mul, Nat.one_mul,
        Nat.mul_comm (left / quantum)]
      omega

end Portions

/-- A slice of a job that has work left, for a whole quantum or until the job is done. -/
structure Slice.Lasts (quantum : Nat) (record : Array TraceEntry) (slice : Slice) (job : Job) :
    Prop where
  own : job.id = slice.job
  unserved : 0 < job.leftBefore record slice.start
  stop : slice.stop = slice.start + min quantum (job.leftBefore record slice.start)

def lengths (slices : List Slice) (id : Nat) : List Nat :=
  (slices.filter (·.job = id)).map fun slice => slice.stop - slice.start

theorem lengths_concat_self {slices : List Slice} {slice : Slice} {id : Nat}
    (own : slice.job = id) :
    lengths (slices ++ [slice]) id = lengths slices id ++ [slice.stop - slice.start] := by
  simp [lengths, own]

theorem lengths_concat_of_ne {slices : List Slice} {slice : Slice} {id : Nat}
    (other : slice.job ≠ id) : lengths (slices ++ [slice]) id = lengths slices id := by
  simp [lengths, other]

namespace Job

variable {record : Array TraceEntry}

theorem leftBefore_of_size_le (ordered : Chronological record) (job : Job) {time : Nat}
    (beyond : record.size ≤ time) :
    job.leftBefore record time = job.leftBefore record record.size := by
  have inTrace : ∀ tick ∈ heldTicks record job.id, tick < record.size := fun tick held =>
    ordered.lt_size_of_mem_heldTicks held
  rw [leftBefore, leftBefore, Chronological.workedBefore_of_past inTrace,
    Chronological.workedBefore_of_past fun tick held =>
      Nat.lt_of_lt_of_le (inTrace tick held) beyond]

theorem leftBefore_tick (ordered : Chronological record) (job : Job) (occupant : Option Nat)
    (unserved : occupant = some job.id → 0 < job.leftBefore record record.size) :
    job.leftBefore record record.size =
      job.leftBefore (record.push ⟨record.size, occupant⟩) (record.size + 1) +
        if occupant = some job.id then 1 else 0 := by
  have worked := (ordered.push occupant).workedBefore_succ job.id record.size
  rw [Chronological.workedBefore_push (Nat.le_refl _), occupantAt_push, if_pos rfl] at worked
  unfold leftBefore at *
  rw [worked]
  split
  next holds =>
    have some := unserved holds
    omega
  next => rfl

end Job

theorem Machine.Orderly.leftBefore_now {workload : List Spec} {machine : Machine} {id : Nat}
    {job : Job} (orderly : machine.Orderly workload machine.now [])
    (elapsed : machine.trace.size = machine.now) (present : machine.job? id = some job) :
    job.blank.leftBefore machine.trace machine.now = job.remaining := by
  obtain ⟨own, submitted⟩ := orderly.blank_eq present
  obtain ⟨found, isFound, _, left, _⟩ := orderly.toBooked.leftBefore_eq submitted
  have isOwn : job.blank.id = id := own
  rw [isOwn] at isFound
  cases present.symm.trans isFound
  rwa [elapsed] at left

theorem Machine.Orderly.leftBefore_recorded {workload : List Spec} {machine : Machine} {id : Nat}
    {job : Job} (orderly : machine.Orderly workload machine.now [])
    (elapsed : machine.trace.size = machine.now) (present : machine.job? id = some job)
    (hasWork : 0 < job.remaining) :
    job.blank.leftBefore (machine.trace.push ⟨machine.now, some id⟩) (machine.now + 1) + 1 =
      job.remaining := by
  have left := orderly.leftBefore_now elapsed present
  have isOwn : job.blank.id = id := (orderly.blank_eq present).1
  have tick := job.blank.leftBefore_tick orderly.chronological (some id) fun _ => by
    rwa [elapsed, left]
  rw [elapsed, left, if_pos (congrArg some isOwn.symm)] at tick
  exact tick.symm

theorem Slice.Lasts.of_leftBefore_eq {quantum : Nat} {record other : Array TraceEntry}
    {slice : Slice} {job : Job} (lasts : slice.Lasts quantum record job)
    (same : job.leftBefore other slice.start = job.leftBefore record slice.start) :
    slice.Lasts quantum other job :=
  ⟨lasts.own, same ▸ lasts.unserved, same ▸ lasts.stop⟩

theorem Scheduler.dispatch_of_quantum? {scheduler : Scheduler} {quantum : Nat}
    {machine next : Machine} (slices : scheduler.quantum? = some quantum)
    (dispatches : scheduler.dispatch machine = .ok next) :
    (machine.cpu.current = none ∧ scheduler.fillCpu machine = .ok next) ∨
      machine.cpu.current ≠ none ∧ next = machine := by
  unfold dispatch at dispatches
  cases current : machine.cpu.current with
  | none =>
      rw [current] at dispatches
      exact .inl ⟨rfl, dispatches⟩
  | some id =>
      rw [current] at dispatches
      cases scheduler with
      | roundRobin | agingRoundRobin =>
          cases dispatches
          exact .inr ⟨by simp, rfl⟩
      | _ => cases slices

/-- What a tick of a policy with a quantum tells of the CPU: it rests, or its occupant works on,
perhaps to the end of its slice, or its occupant completes. -/
theorem Machine.spend_ok {scheduler : Scheduler} {quantum : Nat} {machine worked closed : Machine}
    {work : Work} (slices : scheduler.quantum? = some quantum)
    (works : machine.recordTrace.runCurrent = .ok (work, worked))
    (closes : scheduler.closeTick work worked = .ok closed) :
    closed.trace = machine.trace.push ⟨machine.now, machine.cpu.current⟩ ∧
      ((machine.cpu.current = none ∧ closed.events = machine.events ++ [.cpuIdle 1] ∧
          closed.cpu = machine.cpu) ∨
        ∃ id job, machine.cpu.current = some id ∧ machine.job? id = some job ∧
          ((1 < job.remaining ∧ closed.events = machine.events ∧
              closed.cpu = { machine.cpu with
                sliceUsed := machine.cpu.sliceUsed + 1
                sliceExpired := machine.cpu.sliceExpired ||
                  decide (quantum ≤ machine.cpu.sliceUsed + 1) }) ∨
            (job.remaining = 1 ∧
              closed.events = machine.events ++ [.complete id (machine.now + 1)] ∧
              closed.cpu = { last := machine.cpu.last }))) := by
  rcases work_ok works with
    ⟨nobody, rfl, rfl⟩ | ⟨id, job, current, present, ⟨notLast, hasWork, rfl, isWorked⟩ |
      ⟨lastTick, rfl, completed, _, isWorked⟩⟩
  · cases closes
    exact ⟨rfl, .inl ⟨nobody, rfl, rfl⟩⟩
  · have used : worked.cpu = { machine.cpu with sliceUsed := machine.cpu.sliceUsed + 1 } :=
      isWorked ▸ rfl
    rcases Scheduler.closeTick_ok closes with
      ⟨rfl, isIdle | ⟨_, _, leaves⟩⟩ | ⟨⟨_, isCompleted⟩, _⟩ | ⟨_, _, _, isQuantum, usedUp, ends⟩
    · cases isIdle
    · have short := leaves quantum slices
      rw [used] at short
      refine ⟨isWorked ▸ rfl, .inr ⟨id, job, current, present, .inl ⟨by omega, isWorked ▸ rfl, ?_⟩⟩⟩
      simp [used, Nat.not_le_of_lt short]
    · cases isCompleted
    · cases slices.symm.trans isQuantum
      rw [used] at usedUp
      obtain ⟨jobs, ready, rfl⟩ := Scheduler.endSlice_same ends
      refine ⟨isWorked ▸ rfl, .inr ⟨id, job, current, present, .inl ⟨by omega, isWorked ▸ rfl, ?_⟩⟩⟩
      have long : quantum ≤ machine.cpu.sliceUsed + 1 := usedUp
      simp [markExpired, used, long]
  · obtain ⟨jobs, ready, rfl⟩ : ∃ jobs ready,
        closed = { worked with jobs := jobs, ready := ready } := by
      rcases Scheduler.closeTick_ok closes with
        ⟨_, isIdle | ⟨_, isRan, _⟩⟩ | ⟨_, ends⟩ | ⟨_, _, isRan, _, _, _⟩
      · cases isIdle
      · cases isRan
      · exact Scheduler.endSlice_same ends
      · cases isRan
    exact ⟨isWorked ▸ rfl, .inr ⟨id, job, current, present, .inr ⟨lastTick, isWorked ▸ rfl,
      isWorked ▸ rfl⟩⟩⟩

structure Slicing.Measured (workload : List Spec) (quantum : Nat) (slicing : Slicing)
    (machine : Machine) : Prop extends slicing.Covers machine where
  inOrder : slicing.ended.Pairwise fun first second => first.stop ≤ second.start
  stopped : ∀ slice ∈ slicing.ended, slice.stop ≤ slicing.latest machine.now
  lasts : ∀ slice ∈ slicing.ended, ∃ job ∈ Job.ofWorkload workload,
    slice.Lasts quantum machine.trace job
  divided : ∀ job ∈ Job.ofWorkload workload, lengths slicing.ended job.id ++
      portions quantum (job.leftBefore machine.trace (slicing.latest machine.now)) =
    portions quantum job.service
  spent : ∀ id start, slicing.going = some (id, start) →
    machine.now = start + machine.cpu.sliceUsed ∧
      ∀ job ∈ Job.ofWorkload workload, job.leftBefore machine.trace start =
        job.leftBefore machine.trace machine.now +
          if job.id = id then machine.cpu.sliceUsed else 0
  used : machine.cpu.sliceUsed ≤ quantum
  expired_iff : machine.cpu.sliceExpired = true ↔ machine.cpu.sliceUsed = quantum
  idle : machine.cpu.current = none → machine.cpu.sliceExpired = false

namespace Slicing.Measured

variable {workload : List Spec} {quantum : Nat} {slicing : Slicing} {machine next : Machine}
  {id : Nat}

theorem of_same (measured : slicing.Measured workload quantum machine)
    (cpu : next.cpu = machine.cpu) (now : next.now = machine.now)
    (record : next.trace = machine.trace) : slicing.Measured workload quantum next where
  toCovers := measured.toCovers.of_same (congrArg Cpu.current cpu) now record
  inOrder := measured.inOrder
  stopped := now ▸ measured.stopped
  lasts := record ▸ measured.lasts
  divided := record ▸ now ▸ measured.divided
  spent := record ▸ now ▸ cpu ▸ measured.spent
  used := cpu ▸ measured.used
  expired_iff := cpu ▸ measured.expired_iff
  idle := cpu ▸ measured.idle

theorem latest_of_going {start : Nat} (going : slicing.going = some (id, start)) (now : Nat) :
    slicing.latest now = start := by
  simp [latest, going]

theorem latest_of_idle (resting : slicing.going = none) (now : Nat) : slicing.latest now = now := by
  simp [latest, resting]

theorem start_lt_stop (measured : slicing.Measured workload quantum machine)
    (positive : 0 < quantum)
    {slice : Slice} (ended : slice ∈ slicing.ended) : slice.start < slice.stop := by
  obtain ⟨_, _, lasts⟩ := measured.lasts slice ended
  have unserved := lasts.unserved
  have stop := lasts.stop
  omega

theorem holds (measured : slicing.Measured workload quantum machine) (positive : 0 < quantum)
    {slice : Slice} (ended : slice ∈ slicing.ended) :
    occupantAt machine.trace slice.start = some slice.job := by
  have inSlices : slice ∈ (slicing.close machine.now).ended := by
    cases going : slicing.going with
    | none => rwa [close_of_idle going]
    | some current =>
        rw [close_of_going going]
        exact List.mem_append_left _ ended
  exact (measured.covers _ _).mpr
    ⟨slice, inSlices, rfl, Nat.le_refl _, measured.start_lt_stop positive ended⟩

theorem close {start : Nat} {holder : Job} {last : Option Nat}
    (measured : slicing.Measured workload quantum machine) (positive : 0 < quantum)
    (going : slicing.going = some (id, start)) (submitted : holder ∈ Job.ofWorkload workload)
    (own : holder.id = id) (begun : 0 < machine.cpu.sliceUsed)
    (ends : holder.leftBefore machine.trace machine.now = 0 ∨ machine.cpu.sliceUsed = quantum)
    (cpu : next.cpu = { last := last }) (now : next.now = machine.now)
    (record : next.trace = machine.trace) :
    (slicing.close machine.now).Measured workload quantum next := by
  obtain ⟨sameNow, left⟩ := measured.spent id start going
  have used := measured.used
  have holderLeft := left holder submitted
  rw [if_pos own] at holderLeft
  have unserved : 0 < holder.leftBefore machine.trace start := by omega
  have stop : min quantum (holder.leftBefore machine.trace start) = machine.cpu.sliceUsed := by
    omega
  have length : machine.now - start = machine.cpu.sliceUsed := by omega
  have resting := slicing.going_close machine.now
  have covers : (slicing.close machine.now).Covers next :=
    measured.toCovers.release (by rw [cpu]) now record
  have divided := measured.divided
  have stopped := measured.stopped
  rw [latest_of_going going] at divided stopped
  have isClosed := close_of_going going machine.now
  have past : machine.now = next.now := now.symm
  refine ⟨covers, ?_, ?_, ?_, ?_, by simp [resting], by simp [cpu], ?_, by simp [cpu]⟩
  · rw [isClosed, List.pairwise_append]
    refine ⟨measured.inOrder, List.pairwise_singleton _ _, fun slice ended other isLast => ?_⟩
    cases List.mem_singleton.mp isLast
    exact stopped slice ended
  · rw [latest_of_idle resting, ← past]
    exact fun slice ended => past ▸ covers.past slice ended
  · rw [isClosed, record]
    intro slice member
    rcases List.mem_append.mp member with ended | isLast
    · exact measured.lasts slice ended
    · cases List.mem_singleton.mp isLast
      exact ⟨holder, submitted, own, unserved, sameNow.trans (congrArg (start + ·) stop.symm)⟩
  · rw [latest_of_idle resting, record, isClosed, ← past]
    intro job isJob
    have before := divided job isJob
    by_cases isOwn : job.id = id
    · cases Job.eq_of_id isJob submitted (isOwn.trans own.symm)
      have rest : holder.leftBefore machine.trace start - machine.cpu.sliceUsed =
          holder.leftBefore machine.trace machine.now := by omega
      rw [portions_cons positive unserved, stop, rest] at before
      rw [lengths_concat_self own.symm, length, List.append_assoc, List.singleton_append]
      exact before
    · have same := left job isJob
      rw [if_neg isOwn, Nat.add_zero] at same
      rw [lengths_concat_of_ne (Ne.symm isOwn), ← same]
      exact before
  · simpa [cpu] using Nat.ne_of_lt positive

theorem start {leaving : Nat} (measured : slicing.Measured workload quantum machine)
    (positive : 0 < quantum) (nobody : machine.cpu.current = none)
    (cpu : next.cpu = { current := some leaving, last := some leaving })
    (now : next.now = machine.now) (record : next.trace = machine.trace) :
    Measured workload quantum { slicing with going := some (leaving, machine.now) } next := by
  have resting := measured.toCovers.idle nobody
  have divided := measured.divided
  have stopped := measured.stopped
  rw [latest_of_idle resting] at divided stopped
  refine ⟨measured.toCovers.start nobody (by rw [cpu]) now record, measured.inOrder, stopped,
    record ▸ measured.lasts, record ▸ divided, ?_, by simp [cpu], ?_, by simp [cpu]⟩
  · intro id start going
    simp only [Option.some.injEq, Prod.mk.injEq] at going
    obtain ⟨rfl, rfl⟩ := going
    simp [cpu, now, record]
  · simpa [cpu] using Nat.ne_of_lt positive

theorem rests {ticks : Nat} (measured : slicing.Measured workload quantum machine)
    (nobody : machine.cpu.current = none) (ordered : Chronological machine.trace)
    (elapsed : machine.trace.size = machine.now)
    (cpu : next.cpu = machine.cpu) (now : next.now = machine.now + ticks)
    (record : next.trace = machine.trace ++ Machine.idleTrace machine.now ticks) :
    slicing.Measured workload quantum next := by
  have resting := measured.toCovers.idle nobody
  have covers : slicing.Covers next :=
    (measured.toCovers.rest nobody ticks).of_same (congrArg Cpu.current cpu) now record
  have divided := measured.divided
  have stopped := measured.stopped
  rw [latest_of_idle resting] at divided stopped
  refine ⟨covers, measured.inOrder, ?_, ?_, ?_, by simp [resting], cpu ▸ measured.used,
    cpu ▸ measured.expired_iff, cpu ▸ measured.idle⟩
  · rw [latest_of_idle resting, now]
    exact fun slice ended => (stopped slice ended).trans (Nat.le_add_right _ _)
  · intro slice ended
    obtain ⟨job, submitted, lasts⟩ := measured.lasts slice ended
    refine ⟨job, submitted, lasts.of_leftBefore_eq ?_⟩
    rw [record, Job.leftBefore_append_idleTrace]
  · intro job submitted
    have beyond : machine.trace.size ≤ machine.now + ticks := by omega
    rw [latest_of_idle resting, now, record, Job.leftBefore_append_idleTrace,
      Job.leftBefore_of_size_le ordered job beyond, elapsed]
    exact divided job submitted

theorem goOn (measured : slicing.Measured workload quantum machine)
    (ordered : Chronological machine.trace) (elapsed : machine.trace.size = machine.now)
    (current : machine.cpu.current = some id)
    (unserved : ∀ job ∈ Job.ofWorkload workload, job.id = id →
      0 < job.leftBefore machine.trace machine.now)
    (room : machine.cpu.sliceUsed < quantum) (stays : next.cpu.current = some id)
    (used : next.cpu.sliceUsed = machine.cpu.sliceUsed + 1)
    (expired_iff : next.cpu.sliceExpired = true ↔ next.cpu.sliceUsed = quantum)
    (now : next.now = machine.now + 1)
    (record : next.trace = machine.trace.push ⟨machine.now, some id⟩) :
    slicing.Measured workload quantum next := by
  obtain ⟨start, going⟩ := measured.toCovers.exists_going current
  have begun := measured.begun id start going
  have covers : slicing.Covers next :=
    (measured.toCovers.tick elapsed).of_same (stays.trans current.symm) now
      (by rw [record, Machine.recorded, current])
  obtain ⟨sameNow, left⟩ := measured.spent id start going
  have divided := measured.divided
  have stopped := measured.stopped
  rw [latest_of_going going] at divided stopped
  refine ⟨covers, measured.inOrder, ?_, ?_, ?_, ?_, by omega, expired_iff, by simp [stays]⟩
  · rwa [latest_of_going going]
  · intro slice ended
    obtain ⟨job, submitted, lasts⟩ := measured.lasts slice ended
    have stop := lasts.stop
    have past := measured.past slice ended
    refine ⟨job, submitted, lasts.of_leftBefore_eq ?_⟩
    rw [record, Job.leftBefore_push (by omega)]
  · intro job submitted
    rw [latest_of_going going, record, Job.leftBefore_push begun]
    exact divided job submitted
  · intro other since isGoing
    cases going.symm.trans isGoing
    refine ⟨by omega, fun job submitted => ?_⟩
    have tick := job.leftBefore_tick ordered (some id) fun isId =>
      elapsed ▸ unserved job submitted (Option.some.inj isId).symm
    rw [elapsed] at tick
    rw [record, now, Job.leftBefore_push begun, left job submitted, tick, used]
    by_cases own : job.id = id
    · simp only [own, ↓reduceIte]
      omega
    · simp [own, Ne.symm own]

/-- A slice that is used up has ended, although its end is told only later. -/
theorem exists_seen (measured : slicing.Measured workload quantum machine) (positive : 0 < quantum)
    (orderly : machine.Orderly workload machine.now []) :
    ∃ cpu, (slicing.seen machine).Measured workload quantum { machine with cpu := cpu } := by
  unfold seen
  cases expired : machine.cpu.sliceExpired with
  | false => exact ⟨machine.cpu, measured⟩
  | true =>
      cases current : machine.cpu.current with
      | none => simp [measured.idle current] at expired
      | some id =>
          obtain ⟨start, going⟩ := measured.toCovers.exists_going current
          obtain ⟨job, present, _⟩ :=
            Machine.phase?_eq_some_iff.mp ((orderly.placement.current_iff id).mp current)
          obtain ⟨own, submitted⟩ := orderly.blank_eq present
          have usedUp := measured.expired_iff.mp expired
          exact ⟨{}, measured.close positive going submitted own (usedUp ▸ positive) (.inr usedUp)
            rfl rfl rfl⟩

theorem start_le (measured : slicing.Measured workload quantum machine) (positive : 0 < quantum)
    {slice : Nat × Nat} (begun : slice ∈ slicing.begun) : slice.1 ≤ machine.now := by
  rcases List.mem_append.mp begun with isOver | goesOn
  · obtain ⟨ended, isEnded, rfl⟩ := List.mem_map.mp isOver
    have lasts := measured.start_lt_stop positive isEnded
    have past := measured.past ended isEnded
    exact Nat.le_of_lt (Nat.lt_of_lt_of_le lasts past)
  · obtain ⟨⟨id, start⟩, going, rfl⟩ : ∃ current, slicing.going = some current ∧
        (current.2, current.1) = slice := by simpa using goesOn
    exact measured.begun id start going

section Phases

variable {scheduler : Scheduler}

theorem requeueExpired (measured : slicing.Measured workload quantum machine)
    (positive : 0 < quantum) (orderly : machine.Orderly workload machine.now [])
    (requeues : scheduler.requeueExpired machine = .ok next) :
    ∃ news, next.events = machine.events ++ news ∧ next.cpu.sliceExpired = false ∧
      ((stamped machine.now news).foldl after slicing).begun =
        slicing.begun ++ dispatchesIn (stamped machine.now news) ∧
      ((stamped machine.now news).foldl after slicing).Measured workload quantum next := by
  rcases Scheduler.requeueExpired_ok requeues with
    ⟨stays, rfl⟩ | ⟨id, job, ready, current, expired, present, _, _, rfl⟩
  · have unexpired := stays.elim measured.idle id
    exact ⟨[], (List.append_nil _).symm, unexpired, (List.append_nil _).symm, measured⟩
  · obtain ⟨start, going⟩ := measured.toCovers.exists_going current
    obtain ⟨own, submitted⟩ := orderly.blank_eq present
    have usedUp := measured.expired_iff.mp expired
    exact ⟨[.sliceExpired id], rfl, rfl, (slicing.begun_close _).trans (List.append_nil _).symm,
      measured.close positive going submitted own (usedUp ▸ positive) (.inr usedUp) rfl rfl rfl⟩

theorem dispatch (measured : slicing.Measured workload quantum machine)
    (slices : scheduler.quantum? = some quantum) (positive : 0 < quantum)
    (unexpired : machine.cpu.sliceExpired = false)
    (dispatches : scheduler.dispatch machine = .ok next) :
    ∃ news, next.events = machine.events ++ news ∧ next.cpu.sliceExpired = false ∧
      ((stamped machine.now news).foldl after slicing).begun =
        slicing.begun ++ dispatchesIn (stamped machine.now news) ∧
      ((stamped machine.now news).foldl after slicing).Measured workload quantum next := by
  rcases Scheduler.dispatch_of_quantum? slices dispatches with
    ⟨nobody, fills⟩ | ⟨_, rfl⟩
  · rcases Scheduler.fillCpu_ok fills with ⟨_, rfl⟩ | ⟨id, _, _, _, _, _, _, rfl⟩
    · exact ⟨[], (List.append_nil _).symm, unexpired, (List.append_nil _).symm, measured⟩
    · exact ⟨[.dispatch id machine.cpu.last (machine.switchesTo id)], rfl, rfl,
        begun_start (measured.toCovers.idle nobody) id machine.now,
        measured.start positive nobody rfl rfl rfl⟩
  · exact ⟨[], (List.append_nil _).symm, unexpired, (List.append_nil _).symm, measured⟩

theorem work {worked closed : Machine} {work : Work}
    (measured : slicing.Measured workload quantum machine)
    (slices : scheduler.quantum? = some quantum) (positive : 0 < quantum)
    (orderly : machine.Orderly workload machine.now [])
    (elapsed : machine.trace.size = machine.now) (unexpired : machine.cpu.sliceExpired = false)
    (works : machine.recordTrace.runCurrent = .ok (work, worked))
    (closes : scheduler.closeTick work worked = .ok closed)
    (isNext : next = (closed.advance 1).drainEvents.2) (later : next.now = machine.now + 1) :
    ∃ news, closed.events = machine.events ++ news ∧
      ((stamped machine.now news).foldl after slicing).begun =
        slicing.begun ++ dispatchesIn (stamped machine.now news) ∧
      ((stamped machine.now news).foldl after slicing).Measured workload quantum next := by
  have ordered := orderly.chronological
  have sameCpu : next.cpu = closed.cpu := isNext ▸ rfl
  have sameRecord : next.trace = closed.trace := isNext ▸ rfl
  obtain ⟨record, ⟨nobody, events, cpu⟩ | ⟨id, job, current, present, rest⟩⟩ :=
    Machine.spend_ok slices works closes
  · refine ⟨[.cpuIdle 1], events, (List.append_nil _).symm,
      measured.rests nobody ordered elapsed (sameCpu.trans cpu) later ?_⟩
    rw [sameRecord, record, nobody]
    simp [Machine.idleTrace]
  · rw [current] at record
    obtain ⟨own, submitted⟩ := orderly.blank_eq present
    have isOwn : job.blank.id = id := own
    have left := orderly.leftBefore_now elapsed present
    have room : machine.cpu.sliceUsed < quantum := by
      have notYet : machine.cpu.sliceUsed ≠ quantum := fun usedUp => by
        simp [measured.expired_iff.mpr usedUp] at unexpired
      exact Nat.lt_of_le_of_ne measured.used notYet
    have unserved (hasWork : 0 < job.remaining) (other : Job)
        (isOther : other ∈ Job.ofWorkload workload) (named : other.id = id) :
        0 < other.leftBefore machine.trace machine.now := by
      cases Job.eq_of_id isOther submitted (named.trans isOwn.symm)
      exact left ▸ hasWork
    let spent (expired : Bool) : Machine := { machine with
      now := machine.now + 1
      trace := machine.trace.push ⟨machine.now, some id⟩
      cpu := { machine.cpu with
        sliceUsed := machine.cpu.sliceUsed + 1
        sliceExpired := expired } }
    have goesOn (hasWork : 0 < job.remaining) :
        slicing.Measured workload quantum
          (spent (decide (quantum ≤ machine.cpu.sliceUsed + 1))) := by
      refine measured.goOn ordered elapsed current (unserved hasWork) room current rfl ?_ rfl rfl
      simp only [spent, decide_eq_true_eq]
      omega
    rcases rest with ⟨hasMore, events, cpu⟩ | ⟨lastTick, events, cpu⟩
    · refine ⟨[], by rw [events, List.append_nil], (List.append_nil _).symm, ?_⟩
      rw [unexpired, Bool.false_or] at cpu
      exact (goesOn (by omega)).of_same (sameCpu.trans cpu) later (sameRecord.trans record)
    · have done : job.blank.leftBefore (machine.trace.push ⟨machine.now, some id⟩)
          (machine.now + 1) = 0 := by
        have last := orderly.leftBefore_recorded elapsed present (by omega)
        omega
      obtain ⟨start, going⟩ := measured.toCovers.exists_going current
      exact ⟨[.complete id (machine.now + 1)], events,
        (slicing.begun_close _).trans (List.append_nil _).symm,
        (goesOn (by omega)).close positive going submitted isOwn (Nat.succ_pos _) (.inl done)
          (sameCpu.trans cpu) later (sameRecord.trans record)⟩

end Phases

end Slicing.Measured

structure Slicing.Stages (workload : List Spec) (quantum : Nat) (slicing : Slicing)
    (kernel : Kernel) (requeued started closed : Machine)
    (expired dispatched ended : List Event) : Prop where
  expires : requeued.events = kernel.machine.events ++ expired
  dispatches : started.events = requeued.events ++ dispatched
  ends : closed.events = started.events ++ ended
  unexpired : requeued.cpu.sliceExpired = false
  startUnexpired : started.cpu.sliceExpired = false
  requeued : ((stamped kernel.machine.now expired).foldl after slicing).Measured workload quantum
    requeued
  started : ((stamped kernel.machine.now dispatched).foldl after
    ((stamped kernel.machine.now expired).foldl after slicing)).Measured workload quantum started
  next : ((stamped kernel.machine.now ended).foldl after
    ((stamped kernel.machine.now dispatched).foldl after
      ((stamped kernel.machine.now expired).foldl after slicing))).Measured workload quantum
        (kernel.afterTick closed).machine
  begun : ((stamped kernel.machine.now ended).foldl after
    ((stamped kernel.machine.now dispatched).foldl after
      ((stamped kernel.machine.now expired).foldl after slicing))).begun =
        slicing.begun ++ dispatchesIn (stamped kernel.machine.now (expired ++ dispatched ++ ended))

namespace Kernel

variable {workload : List Spec} {scheduler : Scheduler} {quantum : Nat}

theorem Fed.unstarted {kernel : Kernel} {woken awaited : List Job} {slicing : Slicing}
    {machine : Machine} {job : Job} (fed : kernel.Fed workload woken awaited)
    (record : machine.trace = kernel.machine.trace) (positive : 0 < quantum)
    (measured : slicing.Measured workload quantum machine) (due : job ∈ awaited) :
    ∀ slice ∈ slicing.ended, slice.job ≠ job.id := by
  intro slice ended own
  have asleep : job.id ∉ woken.map (·.id) := fun inWoken => by
    have nodup := fed.nodup
    rw [List.map_append] at nodup
    exact List.disjoint_of_nodup_append nodup inWoken (List.mem_map_of_mem due)
  have holds := measured.holds positive ended
  rw [record] at holds
  have held := fed.orderly.settled.chronological.mem_heldTicks.mpr holds
  simp [own, fed.heldTicks_eq_nil asleep] at held

theorem Phases.exists_stages {kernel : Kernel} {woken awaited : List Job}
    {requeued started worked closed : Machine} {work : Work} {news : List Event} {slicing : Slicing}
    (phases : Phases workload kernel requeued started work worked closed)
    (measured : slicing.Measured workload quantum kernel.machine)
    (slices : kernel.scheduler.quantum? = some quantum) (positive : 0 < quantum)
    (conserving : kernel.Conserving workload woken awaited)
    (isNews : closed.events = kernel.machine.events ++ news)
    (change : Ticked started.cpu.current kernel (kernel.afterTick closed)) :
    ∃ expired dispatched ended, news = expired ++ dispatched ++ ended ∧
      slicing.Stages workload quantum kernel requeued started closed expired dispatched ended := by
  have settled := conserving.orderly.settled
  have requeueNow : requeued.now = kernel.machine.now := phases.requeue.now
  have startNow : started.now = kernel.machine.now := phases.start.now
  have elapsed : started.trace.size = started.now := by
    rw [phases.start.record, startNow, settled.elapsed]
  obtain ⟨expired, expires, unexpired, expiredBegun, measuredRequeued⟩ :=
    measured.requeueExpired positive settled.toOrderly phases.requeues
  obtain ⟨dispatched, dispatches, stillUnexpired, dispatchedBegun, measuredStarted⟩ :=
    measuredRequeued.dispatch slices positive unexpired phases.dispatches
  obtain ⟨ended, ends, endedBegun, measuredNext⟩ :=
    measuredStarted.work slices positive phases.startedOrder elapsed stillUnexpired phases.works
      phases.closes rfl (by rw [startNow]; exact change.now)
  rw [requeueNow] at dispatchedBegun endedBegun measuredStarted measuredNext
  rw [startNow] at endedBegun measuredNext
  refine ⟨expired, dispatched, ended, ?_, expires, dispatches, ends, unexpired, stillUnexpired,
    measuredRequeued, measuredStarted, measuredNext, ?_⟩
  · have whole : kernel.machine.events ++ news =
        kernel.machine.events ++ (expired ++ dispatched ++ ended) := by
      rw [← isNews, ends, dispatches, expires]
      simp only [List.append_assoc]
    exact List.append_cancel_left whole
  · rw [endedBegun, dispatchedBegun, expiredBegun]
    simp only [stamped_append, dispatchesIn_append, List.append_assoc]

theorem maintained_measured (slices : scheduler.quantum? = some quantum) (positive : 0 < quantum) :
    Maintained workload scheduler fun history kernel =>
      dispatchesIn history = (Slicing.ofHistory history).begun ∧
        (Slicing.ofHistory history).Measured workload quantum kernel.machine where
  wake := by
    rintro history kernel next woken job awaited _ _ _ wakes ⟨told, measured⟩
    obtain ⟨_, _, _, _, _, _, rfl⟩ := wake_ok wakes
    rw [Slicing.ofHistory_append, dispatchesIn_append]
    exact ⟨(List.append_nil _).trans told, measured.of_same rfl rfl rfl⟩
  tick := by
    rintro history kernel woken awaited requeued started work worked closed news conserving rfl _
      phases isNews _ change ⟨told, measured⟩
    obtain ⟨expired, dispatched, ended, rfl, stages⟩ :=
      phases.exists_stages measured slices positive conserving isNews change
    rw [Slicing.ofHistory_append, dispatchesIn_append, told, stamped_append, stamped_append,
      List.foldl_append, List.foldl_append]
    refine ⟨?_, stages.next⟩
    rw [stages.begun, stamped_append, stamped_append]
  rest := by
    rintro history kernel woken awaited ticks time conserving _ atRest _ ⟨told, measured⟩
    have settled := conserving.orderly.settled
    rw [Slicing.ofHistory_append, dispatchesIn_append]
    exact ⟨(List.append_nil _).trans told,
      measured.rests atRest.idle settled.chronological settled.elapsed rfl rfl rfl⟩

theorem initial_measured (workload : List Spec) (scheduler : Scheduler) (positive : 0 < quantum) :
    (Slicing.ofHistory []).Measured workload quantum (initial workload scheduler).machine where
  current := rfl
  begun := by simp [Slicing.ofHistory]
  past := by simp [Slicing.ofHistory]
  covers := by
    simp [Slicing.ofHistory, Slicing.close, InSlice, initial, Machine.ofWorkload, occupantAt]
  inOrder := .nil
  stopped := by simp [Slicing.ofHistory]
  lasts := by simp [Slicing.ofHistory]
  divided := by
    intro job _
    simp [Slicing.ofHistory, lengths, Slicing.latest, initial, Machine.ofWorkload, Job.leftBefore,
      workedBefore]
  spent := by simp [Slicing.ofHistory]
  used := Nat.zero_le _
  expired_iff := by simpa [initial, Machine.ofWorkload] using Nat.ne_of_lt positive
  idle := fun _ => rfl

end Kernel

end CpuScheduling
