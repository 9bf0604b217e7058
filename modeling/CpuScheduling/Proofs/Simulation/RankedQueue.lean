import CpuScheduling.Proofs.Kernel.Ranks
import CpuScheduling.Proofs.Lineup.Basic
import CpuScheduling.Proofs.Simulation.Steps

/-!
The queue of a policy that ranks, as it can be seen from outside.  Ranks are written into the
queue when a job enters it or ages there; yet at every moment that matters those who wait stand
in the strict order of the ranks that they have now.
-/

namespace CpuScheduling

theorem sublist_pair_or {first second : Nat} {ids : List Nat} (different : first ≠ second)
    (isFirst : first ∈ ids) (isSecond : second ∈ ids) :
    [first, second].Sublist ids ∨ [second, first].Sublist ids := by
  induction ids with
  | nil => cases isFirst
  | cons head rest inductionHypothesis =>
      rcases List.mem_cons.mp isFirst with rfl | firstLater
      · have later := (List.mem_cons.mp isSecond).resolve_left different.symm
        exact .inl ((List.singleton_sublist.mpr later).cons_cons first)
      · rcases List.mem_cons.mp isSecond with rfl | secondLater
        · exact .inr ((List.singleton_sublist.mpr firstLater).cons_cons second)
        · exact (inductionHypothesis firstLater secondLater).imp (.cons head) (.cons head)

@[simp]
theorem Scheduler.id_rank (scheduler : Scheduler) (job : Job) :
    (scheduler.rank job).id = job.id := by
  cases scheduler <;> rfl

namespace Machine

variable {workload : List Spec} {scheduler : Scheduler} {machine next : Machine} {id other : Nat}

def StandsBefore (scheduler : Scheduler) (machine : Machine) (first second : Nat) : Prop :=
  ∃ job other, machine.job? first = some job ∧ machine.job? second = some other ∧
    scheduler.rank other < scheduler.rank job

theorem StandsBefore.asymm (stands : machine.StandsBefore scheduler id other) :
    ¬machine.StandsBefore scheduler other id := by
  rintro ⟨second, first, isSecond, isFirst, higher⟩
  obtain ⟨job, waiting, present, isWaiting, lower⟩ := stands
  cases present.symm.trans isFirst
  cases isWaiting.symm.trans isSecond
  exact Rank.lt_asymm lower higher

/-- Those who wait stand in the order of their ranks, and whoever is picked next stands before all
the others. -/
structure InRankOrder (scheduler : Scheduler) (machine : Machine) : Prop where
  ready : ∀ id ∈ machine.ready.ids, ∃ job, machine.job? id = some job ∧ job.phase = .ready
  descending : machine.ready.ids.Pairwise (machine.StandsBefore scheduler)
  peek_iff : ∀ id, machine.ready.peek = some id ↔
    id ∈ machine.ready.ids ∧ ∀ other ∈ machine.ready.ids, other ≠ id →
      machine.StandsBefore scheduler id other

theorem InRankOrder.sublist_iff (order : machine.InRankOrder scheduler) (different : id ≠ other)
    (waits : id ∈ machine.ready.ids) (alsoWaits : other ∈ machine.ready.ids) :
    [id, other].Sublist machine.ready.ids ↔ machine.StandsBefore scheduler id other := by
  constructor
  · intro listed
    exact List.pairwise_pair.mp (order.descending.sublist listed)
  · intro stands
    rcases sublist_pair_or different waits alsoWaits with listed | listed
    · exact listed
    · exact absurd stands (List.pairwise_pair.mp (order.descending.sublist listed)).asymm

/-- Fresh ranks put the queue in order: two jobs cannot have one rank, as it names the job. -/
theorem FreshRanks.pairwise_ids (fresh : machine.FreshRanks scheduler)
    (nodup : machine.ready.ids.Nodup)
    (named : ∀ id job, machine.job? id = some job → job.id = id) :
    machine.ready.ids.Pairwise (machine.StandsBefore scheduler) := by
  obtain ⟨heap, isHeap, ranks⟩ := fresh
  rw [isHeap] at nodup ⊢
  have sorted := pairwise_sortByInsertion Ranked.precedes_total Ranked.precedes_trans
    heap.entries.toList
  simp only [ReadyQueue.ids, RankedHeap.ids, List.Nodup, List.pairwise_map] at nodup ⊢
  refine (sorted.and nodup).imp_of_mem ?_
  rintro first second isFirst isSecond ⟨precedes, different⟩
  rw [mem_sortByInsertion, Array.mem_toList_iff] at isFirst isSecond
  obtain ⟨job, present, rank⟩ := ranks first isFirst
  obtain ⟨waiting, isWaiting, waitingRank⟩ := ranks second isSecond
  refine ⟨job, waiting, present, isWaiting, ?_⟩
  by_contra notLower
  have notHigher : ¬scheduler.rank job < scheduler.rank waiting := by
    rw [← rank, ← waitingRank]
    exact Ranked.precedes_iff.mp precedes
  have sameId := congrArg Rank.id (Rank.eq_of_not_lt_of_not_lt notHigher notLower)
  rw [Scheduler.id_rank, Scheduler.id_rank, named _ job present, named _ waiting isWaiting]
    at sameId
  exact different sameId

theorem FreshRanks.inRankOrder {clock : Nat} (fresh : machine.FreshRanks scheduler)
    (orderly : machine.Orderly workload clock []) : machine.InRankOrder scheduler := by
  have descending := fresh.pairwise_ids orderly.placement.nodup fun id job present =>
    (orderly.blank_eq present).1
  refine ⟨fun id waits => Machine.phase?_eq_some_iff.mp ((orderly.placement.mem_iff id).mp waits),
    descending, fun id => ?_⟩
  rw [← ReadyQueue.head?_ids]
  cases queued : machine.ready.ids with
  | nil => simp
  | cons first rest =>
      rw [queued, List.pairwise_cons] at descending
      simp only [List.head?_cons, Option.some.injEq, List.mem_cons]
      constructor
      · rintro rfl
        exact ⟨.inl rfl, fun other waits different =>
          descending.1 other (waits.resolve_left different)⟩
      · rintro ⟨waits, before⟩
        by_contra different
        have behind := descending.1 id (waits.resolve_left (Ne.symm different))
        exact behind.asymm (before first (.inl rfl) different)

end Machine

theorem Kernel.maintained_freshRanks (workload : List Spec) (scheduler : Scheduler) :
    Maintained workload scheduler fun _ kernel =>
      kernel.machine.FreshRanks scheduler ∧ kernel.scheduler = scheduler where
  wake := by
    rintro _ kernel next _ job _ conserving scheduled come wakes ⟨fresh, _⟩
    have woken := wake_freshRanks (scheduled ▸ fresh) wakes
    obtain ⟨_, wakesSame, _, woke⟩ := conserving.wake come
    cases wakes.symm.trans wakesSame
    exact ⟨scheduled ▸ woken, woke.scheduler.trans scheduled⟩
  tick := by
    rintro _ kernel _ _ _ _ _ _ _ _ _ scheduled _ phases _ _ change ⟨fresh, _⟩
    obtain ⟨_, _, closed⟩ := phases.freshRanks (scheduled ▸ fresh)
    exact ⟨scheduled ▸ closed, change.scheduler.trans scheduled⟩
  rest := by
    rintro _ kernel _ _ _ _ _ scheduled _ _ ⟨fresh, _⟩
    exact ⟨fresh, scheduled⟩

namespace Simulation

variable {workload : List Spec} {config : Config} {policy : Policy}
  {simulation first next last : Simulation} {log : List Event} {count : Nat}

/-- The machine from which the next step gives the CPU away: those who have arrived are queued, and
behind them the one whose slice has expired. -/
def enteringDispatch (simulation : Simulation) : Checked Machine := do
  let (fed, _) ← wakeArrived simulation.kernel simulation.pending
  fed.scheduler.requeueExpired fed.machine

theorem freshRanks_of_wakeArrived {kernel next : Kernel} {pending rest : List Nat}
    (fresh : kernel.machine.FreshRanks kernel.scheduler)
    (wakes : wakeArrived kernel pending = .ok (next, rest)) :
    next.machine.FreshRanks next.scheduler := by
  have keeps (early late : Kernel) (id : Nat) (wakesOne : early.wake id = .ok late)
      (fresh : early.machine.FreshRanks early.scheduler) :
      late.machine.FreshRanks late.scheduler := by
    have woken := Kernel.wake_freshRanks fresh wakesOne
    obtain ⟨_, _, _, _, _, _, rfl⟩ := Kernel.wake_ok wakesOne
    exact woken
  exact wakeArrived_keeps keeps wakes fresh

theorem Underway.enteringDispatch_freshRanks {scheduler : Scheduler}
    (underway : simulation.Underway workload) (scheduled : simulation.kernel.scheduler = scheduler)
    (fresh : simulation.kernel.machine.FreshRanks scheduler) :
    ∃ entered, simulation.enteringDispatch = .ok entered ∧ entered.Settled workload ∧
      entered.FreshRanks scheduler := by
  obtain ⟨woken, awaited, conserving, pending⟩ := underway.conserving
  obtain ⟨fed, _, _, feeds, fedOrder, _, _, sameScheduler⟩ := wakeArrived_conserving conserving
  subst scheduled
  have fedFresh := freshRanks_of_wakeArrived fresh feeds
  rw [← sameScheduler]
  obtain ⟨entered, requeues, settled, _⟩ := fed.scheduler.requeueExpired_settled
    fedOrder.orderly.settled fedOrder.orderly.sliced
  refine ⟨entered, ?_, settled, fedFresh.requeueExpired requeues⟩
  simp [enteringDispatch, pending, feeds, requeues, bind, Except.bind]

/-- It is from there that a step which succeeds gives the CPU away. -/
theorem Underway.dispatches_entered (underway : simulation.Underway workload)
    (unfinished : simulation.allFinished = false) {events : List Event} {entered : Machine}
    (steps : simulation.step = .ok (events, next))
    (enters : simulation.enteringDispatch = .ok entered) :
    ∃ started, simulation.kernel.scheduler.dispatch entered = .ok started := by
  obtain ⟨_, _, fed, _, _, _, _, stages, _⟩ := underway.exists_stages unfinished steps
  simp only [enteringDispatch, stages.feeds, bind, Except.bind] at enters
  have ticks := stages.ticks
  rw [Kernel.tick, enters, stages.sameScheduler] at ticks
  obtain ⟨_, isEntered, rest⟩ := bind_eq_ok_iff.mp ticks
  cases isEntered
  obtain ⟨started, dispatches, _⟩ := bind_eq_ok_iff.mp rest
  exact ⟨started, dispatches⟩

/-- However far a run is driven under a policy that ranks, those who wait stand in the strict order
of the ranks that they have now, and so they do when the next step comes to give the CPU away. -/
theorem steps_inRankOrder
    (ranks : policy ∈ [.sjf, .srtf, .priority, .preemptivePriority, .agingRoundRobin])
    (created : ofWorkload workload config policy = .ok first)
    (positive : ∀ spec ∈ workload, 0 < spec.service)
    (driven : first.steps count = .ok (log, last)) :
    last.kernel.machine.InRankOrder last.kernel.scheduler ∧
      (last.allFinished = false →
        ∃ entered, last.enteringDispatch = .ok entered ∧
          entered.InRankOrder last.kernel.scheduler) := by
  obtain ⟨scheduler, decides, isInitial⟩ := exists_initial created
  have ranked : scheduler.emptyQueue = .emptyRanked := by
    have isPolicy := Scheduler.policy_of_ofPolicy decides
    cases scheduler
    case fcfs | roundRobin => simp [← isPolicy, Scheduler.policy] at ranks
    all_goals rfl
  obtain ⟨underway, _⟩ := ofWorkload_underway created positive
  have initially : (Kernel.initial workload scheduler).machine.FreshRanks scheduler := by
    rw [Kernel.initial, ranked]
    exact Machine.ofWorkload_freshRanks ..
  obtain ⟨_, _, ⟨fresh, scheduled⟩, stillUnderway⟩ :=
    (Kernel.maintained_freshRanks workload scheduler).steps [] underway (by rw [isInitial]; rfl)
      (by rw [isInitial]; rfl) (isInitial ▸ ⟨initially, rfl⟩) driven
  obtain ⟨_, _, conserving, _⟩ := stillUnderway.conserving
  obtain ⟨entered, enters, settled, enteredFresh⟩ :=
    stillUnderway.enteringDispatch_freshRanks scheduled fresh
  rw [scheduled]
  exact ⟨fresh.inRankOrder conserving.orderly.settled.toOrderly, fun _ =>
    ⟨entered, enters, enteredFresh.inRankOrder settled.toOrderly⟩⟩

/-- At the end of a slice the first job has caught up with the second one, whose slice it was; that
one joins the queue behind it in the next step, together with a fourth job that arrives. -/
theorem steps_inRankOrder_at_expiry :
    ∃ first last entered log,
      ofWorkload [⟨0, 4, 1⟩, ⟨0, 4, 3⟩, ⟨1, 2, 2⟩, ⟨2, 1, 1⟩]
        { quantum := some 2, agingIncrement := some 2 } .agingRoundRobin = .ok first ∧
      first.steps 2 = .ok (log, last) ∧ last.enteringDispatch = .ok entered ∧
      last.kernel.machine.ready.ids = [3, 1] ∧
      last.kernel.machine.jobs.map (·.effectivePriority) = [3, 3, 4, 1] ∧
      entered.ready.ids = [3, 1, 2, 4] ∧
      last.kernel.machine.InRankOrder last.kernel.scheduler ∧
      entered.InRankOrder last.kernel.scheduler := by
  have driven : ((ofWorkload [⟨0, 4, 1⟩, ⟨0, 4, 3⟩, ⟨1, 2, 2⟩, ⟨2, 1, 1⟩]
      { quantum := some 2, agingIncrement := some 2 } .agingRoundRobin).toOption.bind fun first =>
        (first.steps 2).toOption.bind fun result =>
          result.2.enteringDispatch.toOption.map fun entered =>
            (result.2.kernel.machine.ready.ids,
              result.2.kernel.machine.jobs.map (·.effectivePriority), entered.ready.ids,
              result.2.allFinished)) =
      some ([3, 1], [3, 3, 4, 1], [3, 1, 2, 4], false) := by
    decide +kernel
  obtain ⟨first, isFirst, steps⟩ := Option.bind_eq_some_iff.mp driven
  obtain ⟨⟨log, last⟩, isLast, enters⟩ := Option.bind_eq_some_iff.mp steps
  obtain ⟨entered, isEntered, same⟩ := Option.map_eq_some_iff.mp enters
  simp only [Prod.mk.injEq] at same
  obtain ⟨queued, priorities, enteredQueue, unfinished⟩ := same
  have created := toOption_eq_some_iff.mp isFirst
  have stepped := toOption_eq_some_iff.mp isLast
  have entersDispatch := toOption_eq_some_iff.mp isEntered
  obtain ⟨order, entering⟩ := steps_inRankOrder (by decide) created (by decide) stepped
  obtain ⟨_, isSame, enteredOrder⟩ := entering unfinished
  cases entersDispatch.symm.trans isSame
  exact ⟨first, last, entered, log, created, stepped, entersDispatch, queued, priorities,
    enteredQueue, order, enteredOrder⟩

end Simulation

end CpuScheduling
