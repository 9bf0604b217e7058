import CpuScheduling.Proofs.Simulation.AgingDecision
import CpuScheduling.Proofs.Simulation.RankedQueue
import CpuScheduling.Proofs.Simulation.Unbroken

/-!
Those who go on waiting.  A step does nothing to them but let all of them gain alike, so under
aging two of them keep their order, until both have the greatest priority that there is.
-/

namespace CpuScheduling

section Gains

variable {job : Job}

theorem Job.aged_zero (small : job.effectivePriority ≤ prioritySize - 1) : job.aged 0 = job :=
  congrArg (fun priority => { job with effectivePriority := priority }) (Nat.min_eq_left small)

theorem Job.aged_aged (job : Job) (first second : Nat) :
    (job.aged first).aged second = job.aged (first + second) := by
  simp only [aged, mk.injEq, true_and, and_true]
  omega

theorem Scheduler.afterSlice_eq_aged (quantum step : Nat)
    (small : job.effectivePriority ≤ prioritySize - 1) :
    (agingRoundRobin quantum step).afterSlice job = job.aged step := by
  simp only [afterSlice]
  split
  next noStep => rw [noStep, Job.aged_zero small]
  next => rfl

theorem Scheduler.iterate_afterSlice (quantum step slices : Nat)
    (small : job.effectivePriority ≤ prioritySize - 1) :
    (agingRoundRobin quantum step).afterSlice^[slices] job = job.aged (slices * step) := by
  induction slices generalizing job with
  | zero => rw [Nat.zero_mul, Job.aged_zero small, Function.iterate_zero, id]
  | succ slices inductionHypothesis =>
      have stillSmall : (job.aged step).effectivePriority ≤ prioritySize - 1 := Nat.min_le_right _ _
      rw [Function.iterate_succ_apply, afterSlice_eq_aged quantum step small,
        inductionHypothesis stillSmall, Job.aged_aged, Nat.succ_mul, Nat.add_comm]

theorem Scheduler.rank_agingRoundRobin_lt_iff (quantum step : Nat) {first second : Job}
    (firstSmall : first.effectivePriority ≤ prioritySize - 1)
    (secondSmall : second.effectivePriority ≤ prioritySize - 1) :
    (agingRoundRobin quantum step).rank second < (agingRoundRobin quantum step).rank first ↔
      second.effectivePriority < first.effectivePriority ∨
        second.effectivePriority = first.effectivePriority ∧ first.Earlier second := by
  have key {job : Job} (small : job.effectivePriority ≤ prioritySize - 1) :
      min (job.effectivePriority : Int) 0x7FFFFFFFFFFFFFFF = job.effectivePriority := by
    simp only [prioritySize, UInt32.size] at small
    omega
  simp only [rank, Rank.highestFirst, Rank.lt_iff, Job.Earlier, key firstSmall, key secondSmall]
  omega

/-- Two that wait stay in order by gaining alike, but where both have all the priority that there
is: then the earlier one has the greater rank. -/
theorem Scheduler.rank_aged_lt_iff (quantum step gain : Nat) {first second : Job}
    (different : first.id ≠ second.id)
    (firstSmall : first.effectivePriority ≤ prioritySize - 1)
    (secondSmall : second.effectivePriority ≤ prioritySize - 1)
    (lower : (agingRoundRobin quantum step).rank second <
      (agingRoundRobin quantum step).rank first) :
    (agingRoundRobin quantum step).rank (second.aged gain) <
        (agingRoundRobin quantum step).rank (first.aged gain) ↔
      ¬((first.aged gain).effectivePriority = prioritySize - 1 ∧
        (second.aged gain).effectivePriority = prioritySize - 1 ∧ second.Earlier first) := by
  have stillSmall (job : Job) : (job.aged gain).effectivePriority ≤ prioritySize - 1 :=
    Nat.min_le_right _ _
  rw [rank_agingRoundRobin_lt_iff quantum step firstSmall secondSmall] at lower
  rw [rank_agingRoundRobin_lt_iff quantum step (stillSmall first) (stillSmall second)]
  simp only [Job.aged, Job.Earlier] at lower ⊢
  omega

end Gains

section Changes

variable {workload : List Spec} {scheduler : Scheduler} {machine next : Machine} {id clock : Nat}

theorem Machine.Joins.keeps {joining : Nat} {found : Job} (joins : machine.Joins joining found next)
    (waits : id ∈ machine.ready.ids) : id ∈ next.ready.ids ∧ next.job? id = machine.job? id := by
  refine ⟨joins.queued.mem_iff.mpr (List.mem_cons_of_mem joining waits), joins.others ?_⟩
  rintro rfl
  exact joins.absent waits

theorem Machine.Leaves.keeps {leaving : Nat} {found started : Job}
    (leaves : machine.Leaves leaving found started next) (waits : id ∈ next.ready.ids) :
    id ∈ machine.ready.ids ∧ next.job? id = machine.job? id := by
  refine ⟨leaves.queued.mem_iff.mpr (List.mem_cons_of_mem leaving waits), leaves.others ?_⟩
  rintro rfl
  exact leaves.absent waits

theorem Scheduler.keeps_of_requeueExpired (orderly : machine.Orderly workload clock [])
    (requeues : scheduler.requeueExpired machine = .ok next) (waits : id ∈ machine.ready.ids) :
    id ∈ next.ready.ids ∧ next.job? id = machine.job? id := by
  rcases requeueExpired_ok requeues with
    ⟨_, rfl⟩ | ⟨_, _, _, current, _, present, absent, entered, rfl⟩
  · exact ⟨waits, rfl⟩
  · have running := orderly.phase_of_current current present
    exact (Machine.joins_released present (by simp [running]) absent entered _).keeps waits

theorem Scheduler.keeps_of_dispatch (orderly : machine.Orderly workload clock [])
    (dispatches : scheduler.dispatch machine = .ok next) (waits : id ∈ machine.ready.ids)
    (stays : id ∈ next.ready.ids) : next.job? id = machine.job? id := by
  rcases dispatch_ok dispatches with ⟨_, fills⟩ | ⟨holder, current, rfl | contests⟩
  · rcases fillCpu_ok fills with ⟨_, rfl⟩ | ⟨_, _, started, picked, absent, present, _, rfl⟩
    · rfl
    · exact ((Machine.leaves_given picked present absent started).keeps stays).2
  · rfl
  · rcases contest_ok current contests with
      ⟨_, rfl⟩ | ⟨job, candidate, _, _, present, _, ⟨_, rfl⟩ | ⟨_, _, started, _, _, _, notQueued,
        isWaiting, _, rfl⟩⟩
    · rfl
    · rfl
    · have notCandidate : id ≠ candidate := fun same => notQueued (same ▸ stays)
      have notHolder : id ≠ holder := by
        rintro rfl
        exact orderly.current_absent current waits
      have released := Machine.job?_put present { job with phase := .ready } id
      rw [if_neg notHolder] at released
      exact ((Machine.job?_put isWaiting started id).trans (if_neg notCandidate)).trans released

theorem Machine.keeps_of_work {worked : Machine} {work : Work}
    (orderly : machine.Orderly workload clock [])
    (works : machine.recordTrace.runCurrent = .ok (work, worked)) :
    worked.ready = machine.ready ∧
      ∀ id ∈ machine.ready.ids, worked.job? id = machine.job? id := by
  rcases work_ok works with ⟨_, _, rfl⟩ | ⟨holder, job, current, present, rest⟩
  · exact ⟨rfl, fun _ _ => rfl⟩
  · have absent := orderly.current_absent current
    have elsewhere (found : Job) : ∀ id ∈ machine.ready.ids,
        (machine.put holder found).job? id = machine.job? id := by
      intro id waits
      have different : id ≠ holder := fun same => absent (same ▸ waits)
      exact (job?_put present found id).trans (if_neg different)
    rcases rest with ⟨_, _, _, rfl⟩ | ⟨_, _, completed, _, rfl⟩
    · exact ⟨rfl, elsewhere _⟩
    · exact ⟨rfl, elsewhere completed⟩

theorem Machine.gains_of_tick {worked closed : Machine} {work : Work}
    (orderly : machine.Orderly workload clock [])
    (works : machine.recordTrace.runCurrent = .ok (work, worked))
    (closes : scheduler.closeTick work worked = .ok closed) :
    closed.ready.ids.Perm machine.ready.ids ∧ ∃ slices, ∀ id ∈ machine.ready.ids,
      closed.job? id = (machine.job? id).map scheduler.afterSlice^[slices] := by
  obtain ⟨sameQueue, untouched⟩ := keeps_of_work orderly works
  have nodup := orderly.placement.nodup
  rcases Scheduler.closeTick_ok closes with ⟨rfl, _⟩ | ⟨_, ends⟩ | ⟨_, _, _, _, _, ends⟩
  · refine ⟨.of_eq (congrArg ReadyQueue.ids sameQueue), 0, fun id waits => ?_⟩
    rw [untouched id waits, Function.iterate_zero, Option.map_id]
    rfl
  · obtain ⟨queued, aged, _⟩ := Scheduler.gains_of_endSlice ends nodup sameQueue untouched
    exact ⟨queued, 1, aged⟩
  · obtain ⟨queued, aged, _⟩ := Scheduler.gains_of_endSlice ends nodup sameQueue untouched
    exact ⟨queued, 1, aged⟩

end Changes

namespace Simulation

variable {workload : List Spec} {config : Config} {scheduler : Scheduler}
  {simulation first next middle last : Simulation} {events log news : List Event} {id count : Nat}

theorem keeps_of_wakeArrived {kernel next : Kernel} {pending rest : List Nat}
    (wakes : wakeArrived kernel pending = .ok (next, rest))
    (waits : id ∈ kernel.machine.ready.ids) :
    id ∈ next.machine.ready.ids ∧ next.machine.job? id = kernel.machine.job? id := by
  have keeps (early late : Kernel) (come : Nat) (wakesOne : early.wake come = .ok late)
      (kept : id ∈ early.machine.ready.ids ∧ early.machine.job? id = kernel.machine.job? id) :
      id ∈ late.machine.ready.ids ∧ late.machine.job? id = kernel.machine.job? id := by
    obtain ⟨_, _, present, isPending, absent, entered, rfl⟩ := Kernel.wake_ok wakesOne
    obtain ⟨stillWaits, same⟩ :=
      (Machine.joins_woken present isPending absent entered).keeps kept.1
    exact ⟨stillWaits, same.trans kept.2⟩
  exact wakeArrived_keeps keeps wakes ⟨waits, rfl⟩

theorem Underway.step_ok (underway : simulation.Underway workload)
    (steps : simulation.step = .ok (events, next)) :
    next.Underway workload ∧ next.kernel.scheduler = simulation.kernel.scheduler := by
  cases finished : simulation.allFinished with
  | true =>
      rw [step, if_pos finished] at steps
      cases steps
      exact ⟨underway, rfl⟩
  | false =>
      obtain ⟨_, _, _, ticked, _, _, rested, stages, rfl, rfl, stillUnderway⟩ :=
        underway.exists_stages finished steps
      refine ⟨stillUnderway, ?_⟩
      rcases skipIdle_ok (Kernel.tick_collected stages.ticks) stages.waits with
        ⟨_, rfl⟩ | ⟨_, _, _, _, _, _, _, _, _, _, rfl⟩ <;> exact stages.tickedScheduler

theorem Underway.steps_ok (underway : simulation.Underway workload)
    (driven : simulation.steps count = .ok (log, last)) :
    last.Underway workload ∧ last.kernel.scheduler = simulation.kernel.scheduler := by
  induction count generalizing simulation log with
  | zero =>
      cases driven
      exact ⟨underway, rfl⟩
  | succ count inductionHypothesis =>
      obtain ⟨⟨events, next⟩, steps, others⟩ := bind_eq_ok_iff.mp driven
      obtain ⟨⟨later, final⟩, rest, isLast⟩ := bind_eq_ok_iff.mp others
      cases isLast
      obtain ⟨stillUnderway, sameScheduler⟩ := underway.step_ok steps
      obtain ⟨lastUnderway, lastScheduler⟩ := inductionHypothesis stillUnderway rest
      exact ⟨lastUnderway, lastScheduler.trans sameScheduler⟩

/-- A step of any policy makes all those gain alike who wait before it and after it, and does
nothing else to them. -/
theorem Underway.gains_of_step (underway : simulation.Underway workload)
    (steps : simulation.step = .ok (events, next)) :
    ∃ slices, ∀ id ∈ simulation.kernel.machine.ready.ids, id ∈ next.kernel.machine.ready.ids →
      next.kernel.machine.job? id = (simulation.kernel.machine.job? id).map
        simulation.kernel.scheduler.afterSlice^[slices] := by
  cases finished : simulation.allFinished with
  | true =>
      rw [step, if_pos finished] at steps
      cases steps
      exact ⟨0, fun id _ _ => by rw [Function.iterate_zero, Option.map_id]; rfl⟩
  | false =>
      obtain ⟨_, _, fed, ticked, _, _, rested, stages, rfl, rfl, _⟩ :=
        underway.exists_stages finished steps
      obtain ⟨requeued, started, _, _, closed, phases, rfl, rfl, _⟩ :=
        stages.fedOrder.orderly.tick_ok stages.ticks
      obtain ⟨places, slices, gains⟩ :=
        Machine.gains_of_tick phases.startedOrder phases.works phases.closes
      have waitsOn : rested.machine.ready = closed.ready ∧
          rested.machine.job? = closed.job? := by
        rcases skipIdle_ok (Kernel.tick_collected stages.ticks) stages.waits with
          ⟨_, rfl⟩ | ⟨_, _, _, _, _, _, _, _, _, _, rfl⟩ <;> exact ⟨rfl, rfl⟩
      refine ⟨slices, fun id waits stays => ?_⟩
      change id ∈ rested.machine.ready.ids at stays
      rw [waitsOn.1] at stays
      have inTick := places.mem_iff.mp stays
      obtain ⟨fedWaits, feeds⟩ := keeps_of_wakeArrived stages.feeds waits
      obtain ⟨requeuedWaits, requeues⟩ := Scheduler.keeps_of_requeueExpired
        stages.fedOrder.orderly.settled.toOrderly phases.requeues fedWaits
      have dispatches := Scheduler.keeps_of_dispatch phases.settled.toOrderly phases.dispatches
        requeuedWaits inTick
      change rested.machine.job? id = _
      rw [waitsOn.2, gains id inTick, dispatches, requeues, feeds, stages.sameScheduler]

def Waits (simulation : Simulation) (count id : Nat) : Prop :=
  ∀ fewer ≤ count, ∀ events later, simulation.steps fewer = .ok (events, later) →
    id ∈ later.kernel.machine.ready.ids

instance (simulation : Simulation) (count id : Nat) : Decidable (simulation.Waits count id) :=
  decidable_of_iff
    (∀ fewer ≤ count, ∀ result ∈ (simulation.steps fewer).toOption,
      id ∈ result.2.kernel.machine.ready.ids) <| by
    simp only [Option.mem_def, toOption_eq_some_iff, Prod.forall, Waits]

theorem Waits.atFirst (waits : simulation.Waits count id) :
    id ∈ simulation.kernel.machine.ready.ids :=
  waits 0 (Nat.zero_le count) [] simulation rfl

theorem Waits.atLast (waits : simulation.Waits count id)
    (driven : simulation.steps count = .ok (log, last)) : id ∈ last.kernel.machine.ready.ids :=
  waits count (Nat.le_refl count) log last driven

theorem Waits.later (waits : simulation.Waits (count + 1) id)
    (steps : simulation.step = .ok (events, next)) : next.Waits count id := by
  intro fewer within later state driven
  refine waits (fewer + 1) (Nat.succ_le_succ within) (events ++ later) state ?_
  exact bind_eq_ok_iff.mpr ⟨_, steps, bind_eq_ok_iff.mpr ⟨_, driven, rfl⟩⟩

/-- Whoever waits all the while gains as often as everybody else who does. -/
theorem gains_of_steps (underway : simulation.Underway workload)
    (scheduled : simulation.kernel.scheduler = scheduler)
    (driven : simulation.steps count = .ok (log, last)) :
    ∃ slices, ∀ id, simulation.Waits count id →
      last.kernel.machine.job? id =
        (simulation.kernel.machine.job? id).map scheduler.afterSlice^[slices] := by
  induction count generalizing simulation log with
  | zero =>
      cases driven
      exact ⟨0, fun id _ => by rw [Function.iterate_zero, Option.map_id]; rfl⟩
  | succ count inductionHypothesis =>
      obtain ⟨⟨events, next⟩, steps, others⟩ := bind_eq_ok_iff.mp driven
      obtain ⟨⟨later, final⟩, rest, isLast⟩ := bind_eq_ok_iff.mp others
      cases isLast
      obtain ⟨stillUnderway, sameScheduler⟩ := underway.step_ok steps
      obtain ⟨one, gain⟩ := underway.gains_of_step steps
      obtain ⟨more, gains⟩ :=
        inductionHypothesis stillUnderway (sameScheduler.trans scheduled) rest
      refine ⟨more + one, fun id waits => ?_⟩
      have waitsOn := waits.later steps
      rw [gains id waitsOn, gain id waits.atFirst waitsOn.atFirst, scheduled, Option.map_map,
        Function.iterate_add]

theorem exists_aging (created : ofWorkload workload config .agingRoundRobin = .ok first) :
    ∃ quantum, 0 < quantum ∧
      first.kernel = .initial workload (.agingRoundRobin quantum config.agingStep) := by
  obtain ⟨scheduler, decides, isInitial⟩ := exists_initial created
  obtain ⟨quantum, required, rfl⟩ := Scheduler.eq_of_ofPolicy_aging decides
  exact ⟨quantum, Config.requiredQuantum_pos required, isInitial⟩

theorem steps_append {early late : Nat} (reached : first.steps early = .ok (log, middle))
    (driven : middle.steps late = .ok (news, last)) :
    first.steps (early + late) = .ok (log ++ news, last) := by
  induction early generalizing first log with
  | zero =>
      cases reached
      rwa [Nat.zero_add, List.nil_append]
  | succ early inductionHypothesis =>
      obtain ⟨⟨events, next⟩, steps, others⟩ := bind_eq_ok_iff.mp reached
      obtain ⟨⟨later, _⟩, rest, isMiddle⟩ := bind_eq_ok_iff.mp others
      cases isMiddle
      rw [Nat.add_right_comm, List.append_assoc]
      exact bind_eq_ok_iff.mpr ⟨_, steps, bind_eq_ok_iff.mpr ⟨_, inductionHypothesis rest, rfl⟩⟩

/-- A state under aging: the queue is in the order of the ranks, and nobody who waits has more
priority than the word allows. -/
structure Aging (workload : List Spec) (quantum step : Nat) (simulation : Simulation) : Prop where
  underway : simulation.Underway workload
  scheduled : simulation.kernel.scheduler = .agingRoundRobin quantum step
  order : simulation.kernel.machine.InRankOrder (.agingRoundRobin quantum step)
  small : ∀ id ∈ simulation.kernel.machine.ready.ids, ∀ job,
    simulation.kernel.machine.job? id = some job → job.effectivePriority ≤ prioritySize - 1

theorem aging_of_steps {quantum step : Nat} (length : 0 < quantum)
    (underway : first.Underway workload)
    (isInitial : first.kernel = .initial workload (.agingRoundRobin quantum step))
    (driven : first.steps count = .ok (log, last)) : last.Aging workload quantum step := by
  have scheduled : first.kernel.scheduler = .agingRoundRobin quantum step := by rw [isInitial]; rfl
  have initially := And.intro
    (And.intro (rfl : dispatchesIn [] = (Slicing.ofHistory []).begun)
      (Kernel.initial_measured workload (.agingRoundRobin quantum step) length))
    (Kernel.initial_aged workload quantum step)
  obtain ⟨_, _, ⟨_, aged⟩, _⟩ := (Kernel.maintained_aged length).steps [] underway
    scheduled (by rw [isInitial]; rfl) (isInitial ▸ initially) driven
  obtain ⟨stillUnderway, sameScheduler⟩ := underway.steps_ok driven
  obtain ⟨_, _, conserving, _⟩ := stillUnderway.conserving
  exact {
    underway := stillUnderway
    scheduled := sameScheduler.trans scheduled
    order := aged.fresh.inRankOrder conserving.orderly.settled.toOrderly
    small := fun id waits job present => by
      rw [aged.raised id waits job present]
      exact agedPriority_le .. }

/-- As long as two jobs wait under aging, they gain alike.  The one in front stays in front, unless
both get as far as priorities go: then the earlier one comes first. -/
theorem steps_keep_waiting_order {early late a b : Nat}
    (created : ofWorkload workload config .agingRoundRobin = .ok first)
    (positive : ∀ spec ∈ workload, 0 < spec.service)
    (reached : first.steps early = .ok (log, middle))
    (driven : middle.steps late = .ok (news, last))
    (waits : middle.Waits late a) (alsoWaits : middle.Waits late b)
    (inFront : [a, b].Sublist middle.kernel.machine.ready.ids) :
    ∃ slices jobA jobB,
      middle.kernel.machine.job? a = some jobA ∧ middle.kernel.machine.job? b = some jobB ∧
      last.kernel.machine.job? a = some (jobA.aged (slices * config.agingStep)) ∧
      last.kernel.machine.job? b = some (jobB.aged (slices * config.agingStep)) ∧
      ([a, b].Sublist last.kernel.machine.ready.ids ↔
        ¬((jobA.aged (slices * config.agingStep)).effectivePriority = prioritySize - 1 ∧
          (jobB.aged (slices * config.agingStep)).effectivePriority = prioritySize - 1 ∧
          jobB.Earlier jobA)) := by
  obtain ⟨quantum, length, isInitial⟩ := exists_aging created
  obtain ⟨underway, _⟩ := ofWorkload_underway created positive
  have before := aging_of_steps length underway isInitial reached
  have after := aging_of_steps length underway isInitial (steps_append reached driven)
  obtain ⟨_, _, conserving, _⟩ := before.underway.conserving
  have settled := conserving.orderly.settled
  have different : a ≠ b := List.pairwise_pair.mp (settled.placement.nodup.sublist inFront)
  obtain ⟨slices, gains⟩ := gains_of_steps before.underway before.scheduled driven
  obtain ⟨jobA, jobB, isA, isB, lower⟩ :=
    (before.order.sublist_iff different waits.atFirst alsoWaits.atFirst).mp inFront
  have differentIds : jobA.id ≠ jobB.id := by
    rwa [(settled.blank_eq isA).1, (settled.blank_eq isB).1]
  have smallA := before.small a waits.atFirst jobA isA
  have smallB := before.small b alsoWaits.atFirst jobB isB
  have laterA := gains a waits
  have laterB := gains b alsoWaits
  rw [isA, Option.map_some, Scheduler.iterate_afterSlice quantum _ slices smallA] at laterA
  rw [isB, Option.map_some, Scheduler.iterate_afterSlice quantum _ slices smallB] at laterB
  refine ⟨slices, jobA, jobB, isA, isB, laterA, laterB, ?_⟩
  rw [after.order.sublist_iff different (waits.atLast driven) (alsoWaits.atLast driven),
    ← Scheduler.rank_aged_lt_iff quantum config.agingStep _ differentIds smallA smallB lower]
  constructor
  · rintro ⟨job, other, present, isOther, stands⟩
    cases laterA.symm.trans present
    cases laterB.symm.trans isOther
    exact stands
  · exact fun stands => ⟨_, _, laterA, laterB, stands⟩

/-- Two jobs wait while another one has two slices and completes; the one that came later matters
more, and goes on to stand in front. -/
theorem steps_keep_waiting_order_in_slices :
    ∃ first middle last log news,
      ofWorkload [⟨0, 5, 9⟩, ⟨0, 1, 1⟩, ⟨1, 1, 2⟩] { quantum := some 2 } .agingRoundRobin =
        .ok first ∧
      first.steps 2 = .ok (log, middle) ∧ middle.steps 3 = .ok (news, last) ∧
      middle.Waits 3 3 ∧ middle.Waits 3 2 ∧ [3, 2].Sublist middle.kernel.machine.ready.ids ∧
      last.kernel.machine.jobs.map (·.effectivePriority) = [9, 4, 5] ∧
      ∃ slices jobA jobB,
        middle.kernel.machine.job? 3 = some jobA ∧ middle.kernel.machine.job? 2 = some jobB ∧
        last.kernel.machine.job? 3 = some (jobA.aged (slices * 1)) ∧
        last.kernel.machine.job? 2 = some (jobB.aged (slices * 1)) ∧
        ([3, 2].Sublist last.kernel.machine.ready.ids ↔
          ¬((jobA.aged (slices * 1)).effectivePriority = prioritySize - 1 ∧
            (jobB.aged (slices * 1)).effectivePriority = prioritySize - 1 ∧
            jobB.Earlier jobA)) := by
  have driven : ((ofWorkload [⟨0, 5, 9⟩, ⟨0, 1, 1⟩, ⟨1, 1, 2⟩] { quantum := some 2 }
      .agingRoundRobin).toOption.bind fun first =>
        (first.steps 2).toOption.bind fun reached => (reached.2.steps 3).toOption.map fun result =>
          (reached.2.kernel.machine.ready.ids, decide (reached.2.Waits 3 3),
            decide (reached.2.Waits 3 2),
            result.2.kernel.machine.jobs.map (·.effectivePriority))) =
      some ([3, 2], true, true, [9, 4, 5]) := by
    decide +kernel
  obtain ⟨first, isFirst, steps⟩ := Option.bind_eq_some_iff.mp driven
  obtain ⟨⟨log, middle⟩, isMiddle, rest⟩ := Option.bind_eq_some_iff.mp steps
  obtain ⟨⟨news, last⟩, isLast, same⟩ := Option.map_eq_some_iff.mp rest
  simp only [Prod.mk.injEq, decide_eq_true_eq] at same
  obtain ⟨queued, waits, alsoWaits, priorities⟩ := same
  have created := toOption_eq_some_iff.mp isFirst
  have reached := toOption_eq_some_iff.mp isMiddle
  have goesOn := toOption_eq_some_iff.mp isLast
  have inFront : [3, 2].Sublist middle.kernel.machine.ready.ids := by rw [queued]
  exact ⟨first, middle, last, log, news, created, reached, goesOn, waits, alsoWaits, inFront,
    priorities,
    steps_keep_waiting_order created (by decide) reached goesOn waits alsoWaits inFront⟩

/-- The one in front has the greatest priority that there is, and the one behind it gains what it
cannot; the other one came no later and has the lower id, and so comes to stand in front. -/
theorem steps_reorder_at_the_greatest :
    ∃ first middle last log news,
      ofWorkload [⟨0, 3, 4294967295⟩, ⟨0, 1, 4294967294⟩, ⟨0, 1, 4294967295⟩]
        { quantum := some 2 } .agingRoundRobin = .ok first ∧
      first.steps 1 = .ok (log, middle) ∧ middle.steps 1 = .ok (news, last) ∧
      middle.Waits 1 3 ∧ middle.Waits 1 2 ∧ [3, 2].Sublist middle.kernel.machine.ready.ids ∧
      ¬[3, 2].Sublist last.kernel.machine.ready.ids := by
  have driven : ((ofWorkload [⟨0, 3, 4294967295⟩, ⟨0, 1, 4294967294⟩, ⟨0, 1, 4294967295⟩]
      { quantum := some 2 } .agingRoundRobin).toOption.bind fun first =>
        (first.steps 1).toOption.bind fun reached => (reached.2.steps 1).toOption.map fun result =>
          (reached.2.kernel.machine.ready.ids, decide (reached.2.Waits 1 3),
            decide (reached.2.Waits 1 2), result.2.kernel.machine.ready.ids)) =
      some ([3, 2], true, true, [2, 3]) := by
    decide +kernel
  obtain ⟨first, isFirst, steps⟩ := Option.bind_eq_some_iff.mp driven
  obtain ⟨⟨log, middle⟩, isMiddle, rest⟩ := Option.bind_eq_some_iff.mp steps
  obtain ⟨⟨news, last⟩, isLast, same⟩ := Option.map_eq_some_iff.mp rest
  simp only [Prod.mk.injEq, decide_eq_true_eq] at same
  obtain ⟨queued, waits, alsoWaits, laterQueued⟩ := same
  refine ⟨first, middle, last, log, news, toOption_eq_some_iff.mp isFirst,
    toOption_eq_some_iff.mp isMiddle, toOption_eq_some_iff.mp isLast, waits, alsoWaits,
    by rw [queued], ?_⟩
  rw [laterQueued]
  decide

end Simulation

end CpuScheduling
