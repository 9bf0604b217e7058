import CpuScheduling.Proofs.Lineup.Live
import CpuScheduling.Proofs.Simulation.AgedPriority
import CpuScheduling.Proofs.Simulation.Steps

/-!
How aging decides.  Each slice goes to the live job that stands highest once waiting has raised
priorities; this is so in every state that a run goes through, and so is the closed form of the
priorities.
-/

namespace CpuScheduling

theorem Scheduler.outranks_of_rank {quantum step : Nat} {first second : Job} {standing : Job → Nat}
    (notLower : ¬(agingRoundRobin quantum step).rank first <
      (agingRoundRobin quantum step).rank second)
    (isFirst : first.effectivePriority = standing first)
    (isSecond : second.effectivePriority = standing second)
    (small : standing first ≤ prioritySize - 1) (alsoSmall : standing second ≤ prioritySize - 1)
    (different : first.id ≠ second.id) : first.Outranks standing second := by
  simp only [rank, Rank.highestFirst, Rank.lt_iff, isFirst, isSecond] at notLower
  simp only [prioritySize, UInt32.size] at small alsoSmall
  unfold Job.Outranks
  omega

/-- Of all that are live when a slice begins, its job stands highest. -/
def Choice (workload : List Spec) (step : Nat) (record : Array TraceEntry) (before : List Slice)
    (slice : Nat × Nat) : Prop :=
  ∃ chosen ∈ Job.ofWorkload workload, chosen.id = slice.2 ∧ chosen.Live record slice.1 ∧
    ∀ other ∈ Job.ofWorkload workload, other.Live record slice.1 → other.id ≠ chosen.id →
      chosen.Outranks (agedPriority step before) other

theorem Choice.of_leftBefore_eq {workload : List Spec} {step : Nat}
    {record other : Array TraceEntry} {before : List Slice} {slice : Nat × Nat}
    (choice : Choice workload step record before slice)
    (same : ∀ job : Job, job.leftBefore other slice.1 = job.leftBefore record slice.1) :
    Choice workload step other before slice := by
  simpa only [Choice, Job.Live, same] using choice

namespace Machine.Settled

variable {workload : List Spec} {machine : Machine} {id : Nat} {job : Job}

theorem live_of_waits (settled : machine.Settled workload) (waits : id ∈ machine.ready.ids)
    (present : machine.job? id = some job) : job.blank.Live machine.trace machine.now := by
  have isReady := settled.placement.ready_of_mem waits present
  have balanced := settled.balanced id job present
  have come := balanced.elapsed (by simp [isReady])
  refine ⟨show job.arrival ≤ machine.now by omega, ?_⟩
  rw [settled.toOrderly.leftBefore_now settled.elapsed present]
  refine Nat.pos_of_ne_zero fun done => ?_
  cases isReady.symm.trans (balanced.finished_iff.mpr done)

theorem waits_of_live (settled : machine.Settled workload) (nobody : machine.cpu.current = none)
    (submitted : job ∈ Job.ofWorkload workload) (live : job.Live machine.trace machine.now)
    (notPending : machine.phase? job.id ≠ some .pending) : job.id ∈ machine.ready.ids := by
  obtain ⟨found, present, rfl, left, finished_iff⟩ := settled.toBooked.leftBefore_eq submitted
  have isPhase := Machine.phase?_of_job? present
  rw [settled.elapsed] at left
  refine (settled.placement.mem_iff _).mpr ?_
  cases phase : found.phase with
  | pending => exact absurd (phase ▸ isPhase) notPending
  | ready => rw [isPhase, phase]
  | running =>
      have current := (settled.placement.current_iff _).mpr (phase ▸ isPhase)
      cases nobody.symm.trans current
  | finished =>
      have unserved := live.2
      rw [left, finished_iff.mp phase] at unserved
      cases unserved

end Machine.Settled

/-- The first in the queue stands highest of all that are live. -/
theorem Machine.Raised.choice {workload : List Spec} {quantum step id : Nat} {ended : List Slice}
    {machine : Machine} {first : Job} (raised : machine.Raised step ended)
    (settled : machine.Settled workload)
    (fresh : machine.FreshRanks (.agingRoundRobin quantum step))
    (woken : ∀ job ∈ Job.ofWorkload workload, job.arrival ≤ machine.now →
      machine.phase? job.id ≠ some .pending)
    (nobody : machine.cpu.current = none) (picked : machine.ready.peek = some id)
    (present : machine.job? id = some first) :
    Choice workload step machine.trace ended (machine.now, id) := by
  have isFirst := ReadyQueue.mem_ids_of_peek picked
  obtain ⟨own, submitted⟩ := settled.blank_eq present
  refine ⟨first.blank, submitted, own, settled.live_of_waits isFirst present, ?_⟩
  intro other isOther live different
  have waits := settled.waits_of_live nobody isOther live (woken other isOther live.1)
  obtain ⟨rival, isRival, rfl⟩ := settled.toBooked.exists_submitted isOther
  have outranks : first.Outranks (agedPriority step ended) rival := Scheduler.outranks_of_rank
    (fresh.not_rank_lt picked present waits isRival) (raised.raised id isFirst first present)
    (raised.raised _ waits rival isRival) (agedPriority_le step ended first)
    (agedPriority_le step ended rival) (Ne.symm different)
  exact outranks

namespace Slicing.Each

variable {workload : List Spec} {scheduler : Scheduler} {quantum step : Nat} {slicing : Slicing}
  {fits : List Slice → Nat × Nat → Prop} {machine next : Machine} {news : List Event}

theorem seen (each : slicing.Each fits) (machine : Machine) : (slicing.seen machine).Each fits := by
  unfold Slicing.seen
  split
  · exact each.close machine.now
  · exact each

theorem requeueExpired (each : slicing.Each fits)
    (requeues : scheduler.requeueExpired machine = .ok next)
    (told : next.events = machine.events ++ news) :
    ((stamped machine.now news).foldl after slicing).Each fits := by
  rcases Scheduler.requeueExpired_ok requeues with
    ⟨_, rfl⟩ | ⟨id, _, _, _, _, _, _, _, rfl⟩
  · obtain rfl : news = [] := by simpa using told
    exact each
  · obtain rfl : [.sliceExpired id] = news := List.append_cancel_left told
    exact each.close machine.now

theorem dispatch (each : slicing.Each (Choice workload step machine.trace))
    (raised : machine.Raised step slicing.ended)
    (measured : slicing.Measured workload quantum machine)
    (settled : machine.Settled workload)
    (fresh : machine.FreshRanks (.agingRoundRobin quantum step))
    (woken : ∀ job ∈ Job.ofWorkload workload, job.arrival ≤ machine.now →
      machine.phase? job.id ≠ some .pending)
    (dispatches : (Scheduler.agingRoundRobin quantum step).dispatch machine = .ok next)
    (told : next.events = machine.events ++ news) :
    ((stamped machine.now news).foldl after slicing).Each (Choice workload step machine.trace) := by
  rcases Scheduler.dispatch_of_quantum? rfl dispatches with ⟨nobody, fills⟩ | ⟨_, rfl⟩
  · rcases Scheduler.fillCpu_ok fills with ⟨_, rfl⟩ | ⟨id, _, _, picked, _, present, _, rfl⟩
    · obtain rfl : news = [] := by simpa using told
      exact each
    · obtain rfl : [.dispatch id machine.cpu.last (machine.switchesTo id)] = news :=
        List.append_cancel_left told
      exact each.start (measured.toCovers.idle nobody)
        (raised.choice settled fresh woken nobody picked present)
  · obtain rfl : news = [] := by simpa using told
    exact each

theorem work {worked closed : Machine} {work : Work} (each : slicing.Each fits)
    (slices : scheduler.quantum? = some quantum)
    (works : machine.recordTrace.runCurrent = .ok (work, worked))
    (closes : scheduler.closeTick work worked = .ok closed)
    (told : closed.events = machine.events ++ news) :
    ((stamped machine.now news).foldl after slicing).Each fits := by
  obtain ⟨_, ⟨_, events, _⟩ | ⟨id, _, _, _, ⟨_, events, _⟩ | ⟨_, events, _⟩⟩⟩ :=
    Machine.spend_ok slices works closes
  · obtain rfl : [.cpuIdle 1] = news := List.append_cancel_left (events.symm.trans told)
    exact each
  · obtain rfl : news = [] := by simpa [events] using told
    exact each
  · obtain rfl : [.complete id (machine.now + 1)] = news :=
      List.append_cancel_left (events.symm.trans told)
    exact each.close (machine.now + 1)

end Slicing.Each

structure Slicing.Aged (workload : List Spec) (quantum step : Nat) (slicing : Slicing)
    (machine : Machine) : Prop
    extends machine.Raised step (slicing.seen machine).ended where
  plain : machine.Plain (.agingRoundRobin quantum step)
  fresh : machine.FreshRanks (.agingRoundRobin quantum step)
  chosen : slicing.Each (Choice workload step machine.trace)

namespace Kernel

variable {workload : List Spec} {quantum step : Nat}

theorem Conserving.raises {kernel next : Kernel} {woken awaited : List Job} {job : Job}
    {slicing : Slicing} (conserving : kernel.Conserving workload woken (job :: awaited))
    (positive : 0 < quantum) (come : job.arrival ≤ kernel.machine.now)
    (wakes : kernel.wake job.id = .ok next)
    (measured : slicing.Measured workload quantum kernel.machine)
    (raised : kernel.machine.Raised step (slicing.seen kernel.machine).ended) :
    next.machine.Raised step (slicing.seen next.machine).ended := by
  have settled := conserving.orderly.settled
  obtain ⟨notLater, isDue⟩ := conserving.due job List.mem_cons_self
  have submitted := conserving.submitted (.inr List.mem_cons_self)
  obtain ⟨cpu, measuredSeen⟩ := measured.exists_seen positive settled.toOrderly
  have unstarted := conserving.unstarted (by rfl) positive measuredSeen List.mem_cons_self
  obtain ⟨found, ready, present, isPending, absent, entered, rfl⟩ := wake_ok wakes
  cases present.symm.trans isDue
  have base : job.effectivePriority = job.priority := by
    obtain ⟨_, _, _, rfl⟩ := Job.mem_ofWorkload.mp submitted
    rfl
  have joins := Machine.joins_woken present isPending absent entered
  exact raised.join joins measuredSeen.past base (settled.toBooked.priority_le present)
    ((waitingSince_of_unstarted unstarted).trans (Nat.le_antisymm come notLater))

theorem maintained_aged (positive : 0 < quantum) :
    Maintained workload (.agingRoundRobin quantum step) fun history kernel =>
      (dispatchesIn history = (Slicing.ofHistory history).begun ∧
        (Slicing.ofHistory history).Measured workload quantum kernel.machine) ∧
      (Slicing.ofHistory history).Aged workload quantum step kernel.machine where
  wake := by
    rintro history kernel next woken job awaited conserving scheduled come wakes ⟨measured, aged⟩
    have raised := conserving.raises positive come wakes measured.2 aged.toRaised
    have fresh := wake_freshRanks (scheduled ▸ aged.fresh) wakes
    obtain ⟨_, wakesSame, _, woke⟩ := conserving.wake come
    cases wakes.symm.trans wakesSame
    refine ⟨(maintained_measured rfl positive).wake conserving scheduled come wakes measured, ?_⟩
    rw [Slicing.ofHistory_append]
    exact { raised with
      plain := wake_plain aged.plain wakes
      fresh := scheduled ▸ fresh
      chosen := woke.record ▸ aged.chosen }
  tick := by
    rintro history kernel woken awaited requeued started work worked closed news conserving
      scheduled later phases isNews nextOrder change ⟨⟨told, measured⟩, aged⟩
    have settled := conserving.orderly.settled
    have requeueNow : requeued.now = kernel.machine.now := phases.requeue.now
    have startNow : started.now = kernel.machine.now := phases.start.now
    have sameRecord : requeued.trace = kernel.machine.trace := phases.requeue.record
    have requeues := phases.requeues
    have dispatches := phases.dispatches
    have closes := phases.closes
    obtain ⟨requeuedFresh, _, nextFresh⟩ := phases.freshRanks (scheduled ▸ aged.fresh)
    have nextPlain := phases.plain (scheduled ▸ aged.plain)
    rw [scheduled] at requeues dispatches closes requeuedFresh nextFresh nextPlain
    have nextMeasured := (maintained_measured rfl positive).tick conserving scheduled later phases
      isNews nextOrder change ⟨told, measured⟩
    obtain ⟨expired, dispatched, ended, rfl, stages⟩ := phases.exists_stages measured
      (by rw [scheduled]; rfl) positive conserving isNews change
    have come (job : Job) (submitted : job ∈ Job.ofWorkload workload)
        (arrived : job.arrival ≤ requeued.now) : requeued.phase? job.id ≠ some .pending :=
      phases.notPending conserving.toFed later submitted (requeueNow ▸ arrived)
    have raisedRequeued := aged.toRaised.requeueExpired measured settled.toOrderly aged.plain
      requeues stages.expires
    have chosenRequeued := aged.chosen.requeueExpired requeues stages.expires
    rw [← sameRecord] at chosenRequeued
    have raisedStarted := raisedRequeued.dispatch dispatches stages.dispatches
    have chosenStarted := chosenRequeued.dispatch raisedRequeued stages.requeued phases.settled
      requeuedFresh come dispatches stages.dispatches
    rw [requeueNow] at raisedStarted chosenStarted
    have raisedNext := raisedStarted.work stages.started phases.startedOrder
      stages.startUnexpired phases.works closes rfl (by rw [startNow]; exact change.now) stages.ends
    have chosenRecorded : Slicing.Each _
        (Choice workload step (kernel.afterTick closed).machine.trace) :=
      chosenStarted.imp fun _ slice begun choice => choice.of_leftBefore_eq fun job => by
        have notLater := stages.started.start_le positive begun
        rw [change.record, sameRecord, Job.leftBefore_push (startNow ▸ notLater)]
    have chosenNext := chosenRecorded.work rfl phases.works closes stages.ends
    rw [startNow] at raisedNext chosenNext
    refine ⟨nextMeasured, ?_⟩
    rw [Slicing.ofHistory_append, stamped_append, stamped_append, List.foldl_append,
      List.foldl_append]
    exact { raisedNext with
      plain := nextPlain
      fresh := nextFresh
      chosen := chosenNext }
  rest := by
    rintro history kernel woken awaited ticks time conserving scheduled atRest before
      ⟨measured, aged⟩
    refine ⟨(maintained_measured rfl positive).rest time conserving scheduled atRest before
      measured, ?_⟩
    rw [Slicing.ofHistory_append]
    have nobody (id : Nat) : id ∉ (kernel.rested ticks 0).machine.ready.ids := by
      change id ∉ kernel.machine.ready.ids
      simp [atRest.empty]
    exact {
      raised := fun id waits => absurd waits (nobody id)
      since := fun id waits => absurd waits (nobody id)
      plain := aged.plain
      fresh := aged.fresh
      chosen := aged.chosen.imp fun _ slice _ choice => choice.of_leftBefore_eq fun job =>
        Job.leftBefore_append_idleTrace _ _ _ _ _ }

theorem initial_aged (workload : List Spec) (quantum step : Nat) :
    (Slicing.ofHistory []).Aged workload quantum step
      (initial workload (.agingRoundRobin quantum step)).machine := by
  have nobody (id : Nat) :
      id ∉ (initial workload (.agingRoundRobin quantum step)).machine.ready.ids := by
    simp [initial, Machine.ofWorkload, ids_emptyQueue (.agingRoundRobin quantum step)]
  refine {
    raised := fun id waits => absurd waits (nobody id)
    since := fun id waits => absurd waits (nobody id)
    plain := ?_
    fresh := Machine.ofWorkload_freshRanks ..
    chosen := Slicing.each_empty _ }
  intro id job present _
  obtain ⟨spec, _, rfl⟩ := Machine.job?_ofWorkload present
  rfl

end Kernel

/-- A state under aging: its priorities, in closed form, and the slices that have led to it. -/
structure AgedByTurns (workload : List Spec) (quantum step : Nat) (history : List (Nat × Event))
    (slicing : Slicing) (machine : Machine) : Prop where
  queued : ∀ id, id ∈ machine.ready.ids ↔ machine.phase? id = some .ready
  base : ∀ id job, machine.job? id = some job → job.phase ≠ .ready →
    job.effectivePriority = job.priority
  raised : ∀ id job, machine.job? id = some job → job.phase = .ready →
    job.effectivePriority = agedPriority step slicing.ended job
  dispatched : dispatchesIn history = slicing.begun
  held : ∀ time id, occupantAt machine.trace time = some id ↔
    InSlice (slicing.close machine.now).ended id time
  apart : slicing.ended.Pairwise fun first second => first.stop ≤ second.start
  chosen : slicing.Each (Choice workload step machine.trace)
  lasts : ∀ slice ∈ slicing.ended, ∃ job ∈ Job.ofWorkload workload,
    slice.Lasts quantum machine.trace job
  goesOn : ∀ id start, slicing.going = some (id, start) → ∃ job ∈ Job.ofWorkload workload,
    job.id = id ∧ start ≤ machine.now ∧
      machine.now < start + min quantum (job.leftBefore machine.trace start)

theorem Slicing.Measured.lt_stop {workload : List Spec} {quantum id start : Nat} {slicing : Slicing}
    {machine : Machine} (measured : slicing.Measured workload quantum machine)
    (settled : machine.Settled workload) (unexpired : machine.cpu.sliceExpired = false)
    (going : slicing.going = some (id, start)) :
    ∃ job ∈ Job.ofWorkload workload, job.id = id ∧ start ≤ machine.now ∧
      machine.now < start + min quantum (job.leftBefore machine.trace start) := by
  have current : machine.cpu.current = some id := by
    rw [← measured.current, going, Option.map_some]
  obtain ⟨job, present, runs⟩ :=
    Machine.phase?_eq_some_iff.mp ((settled.placement.current_iff id).mp current)
  obtain ⟨own, submitted⟩ := settled.blank_eq present
  have isOwn : job.blank.id = id := own
  obtain ⟨isNow, left⟩ := measured.spent id start going
  have leftStart := left job.blank submitted
  rw [if_pos isOwn, settled.toOrderly.leftBefore_now settled.elapsed present] at leftStart
  have hasWork : job.remaining ≠ 0 := fun done => by
    cases runs.symm.trans ((settled.balanced id job present).finished_iff.mpr done)
  have notYet : machine.cpu.sliceUsed ≠ quantum := fun usedUp => by
    simp [measured.expired_iff.mpr usedUp] at unexpired
  have used := measured.used
  exact ⟨job.blank, submitted, isOwn, by omega, by omega⟩

theorem Slicing.Aged.byTurns {workload : List Spec} {quantum step : Nat} {slicing : Slicing}
    {machine : Machine} {history : List (Nat × Event)}
    (aged : slicing.Aged workload quantum step machine)
    (measured : slicing.Measured workload quantum machine)
    (told : dispatchesIn history = slicing.begun)
    (settled : machine.Settled workload) (positive : 0 < quantum) :
    AgedByTurns workload quantum step history (slicing.seen machine) machine := by
  obtain ⟨cpu, seen⟩ := measured.exists_seen positive settled.toOrderly
  exact {
    queued := settled.placement.mem_iff
    base := fun id job present notReady => aged.plain id job present (.inr notReady)
    raised := fun id job present isReady => aged.raised id
      ((settled.placement.mem_iff id).mpr (Machine.phase?_eq_some_iff.mpr ⟨job, present, isReady⟩))
      job present
    dispatched := by
      unfold Slicing.seen
      split
      · rw [Slicing.begun_close, told]
      · exact told
    held := seen.covers
    apart := seen.inOrder
    chosen := aged.chosen.seen machine
    lasts := seen.lasts
    goesOn := by
      intro id start going
      unfold Slicing.seen at going
      split at going
      next => simp [slicing.going_close] at going
      next unexpired => exact measured.lt_stop settled (by simpa using unexpired) going }

namespace Simulation

variable {workload : List Spec} {config : Config} {first last : Simulation} {log : List Event}
  {count : Nat}

/-- However far a run with aging is driven, the turns that others have had since a job began to
wait say what its priority has become, and each slice goes to who then stands highest. -/
theorem steps_aged {quantum : UInt64}
    (created : ofWorkload workload config .agingRoundRobin = .ok first)
    (positive : ∀ spec ∈ workload, 0 < spec.service) (given : config.quantum = some quantum)
    (driven : first.steps count = .ok (log, last)) :
    (first.stepHistory count).map (·.2) = log ∧
      AgedByTurns workload quantum.toNat config.agingStep (first.stepHistory count)
        ((Slicing.ofHistory (first.stepHistory count)).seen last.kernel.machine)
        last.kernel.machine := by
  obtain ⟨scheduler, decides, isInitial⟩ := exists_initial created
  have required := Config.requiredQuantum_of_ofPolicy rfl decides given
  have length := Config.requiredQuantum_pos required
  obtain rfl : scheduler = .agingRoundRobin quantum.toNat config.agingStep := by
    simpa [Scheduler.ofPolicy, required, Except.map] using decides.symm
  obtain ⟨underway, _⟩ := ofWorkload_underway created positive
  have initially := And.intro
    (And.intro (rfl : dispatchesIn [] = (Slicing.ofHistory []).begun)
      (Kernel.initial_measured workload (.agingRoundRobin quantum.toNat config.agingStep) length))
    (Kernel.initial_aged workload quantum.toNat config.agingStep)
  obtain ⟨isLog, ⟨⟨told, measured⟩, aged⟩, stillUnderway⟩ :=
    (Kernel.maintained_aged length).stepHistory [] underway (by rw [isInitial]; rfl)
      (by rw [isInitial]; rfl) (isInitial ▸ initially) driven
  obtain ⟨woken, awaited, conserving, _⟩ := stillUnderway.conserving
  exact ⟨isLog, aged.byTurns measured told conserving.orderly.settled length⟩

/-- The first job catches up with the second one, whose priority is the greatest that there is, and
comes first by its id; the second one then waits as well, and can gain no more. -/
theorem steps_aged_to_the_greatest :
    ∃ first last log,
      ofWorkload [⟨0, 2, 4294967294⟩, ⟨0, 4, 4294967295⟩, ⟨1, 3, 0⟩]
        { quantum := some 2, maxTicks := 20 } .agingRoundRobin = .ok first ∧
      first.steps 4 = .ok (log, last) ∧
      last.kernel.machine.jobs.map (fun job => (job.phase, job.effectivePriority)) =
        [(.finished, 4294967294), (.ready, 4294967295), (.ready, 2)] ∧
      (Slicing.ofHistory (first.stepHistory 4)).seen last.kernel.machine =
        { ended := [⟨2, 0, 2⟩, ⟨1, 2, 4⟩] } ∧
      (first.stepHistory 4).map (·.2) = log ∧
      AgedByTurns [⟨0, 2, 4294967294⟩, ⟨0, 4, 4294967295⟩, ⟨1, 3, 0⟩] 2 1 (first.stepHistory 4)
        ((Slicing.ofHistory (first.stepHistory 4)).seen last.kernel.machine)
        last.kernel.machine := by
  have driven : ((ofWorkload [⟨0, 2, 4294967294⟩, ⟨0, 4, 4294967295⟩, ⟨1, 3, 0⟩]
      { quantum := some 2, maxTicks := 20 } .agingRoundRobin).toOption.bind fun first =>
        (first.steps 4).toOption.map fun result =>
          (result.2.kernel.machine.jobs.map fun job => (job.phase, job.effectivePriority),
            (Slicing.ofHistory (first.stepHistory 4)).seen result.2.kernel.machine)) =
      some ([(.finished, 4294967294), (.ready, 4294967295), (.ready, 2)],
        { ended := [⟨2, 0, 2⟩, ⟨1, 2, 4⟩] }) := by
    decide +kernel
  obtain ⟨first, isFirst, steps⟩ := Option.bind_eq_some_iff.mp driven
  obtain ⟨⟨log, last⟩, isLast, same⟩ := Option.map_eq_some_iff.mp steps
  obtain ⟨priorities, slices⟩ := Prod.mk.inj same
  have created := toOption_eq_some_iff.mp isFirst
  have stepped := toOption_eq_some_iff.mp isLast
  have positive : ∀ spec ∈ ([⟨0, 2, 4294967294⟩, ⟨0, 4, 4294967295⟩, ⟨1, 3, 0⟩] : List Spec),
      0 < spec.service := by
    decide
  obtain ⟨isLog, aged⟩ := steps_aged created positive rfl stepped
  exact ⟨first, last, log, created, stepped, priorities, slices, isLog, aged⟩

end Simulation

end CpuScheduling
