import CpuScheduling.Proofs.Simulation.FairWaiting

/-!
No job starves under aging: each period in which a job waits is bounded by the turns
that others can take meanwhile.
-/

namespace CpuScheduling

variable {workload : List Spec} {quantum step : Nat} {job : Job} {slicing : Slicing}
  {machine next : Machine}

/-- Under aging a rank that is no greater belongs to a priority that is no greater, below
what a word can hold. -/
theorem Scheduler.effectivePriority_le_of_rank {first second : Job}
    (notLower : ¬(agingRoundRobin quantum step).rank first <
      (agingRoundRobin quantum step).rank second)
    (small : second.effectivePriority ≤ prioritySize - 1) :
    second.effectivePriority ≤ first.effectivePriority := by
  simp only [rank, Rank.highestFirst, Rank.lt_iff] at notLower
  simp only [prioritySize, UInt32.size] at small
  omega

theorem Machine.serves_of_work {holder : Nat} {held : Job} {work : Work}
    (current : machine.cpu.current = some holder) (present : machine.job? holder = some held)
    (started : held.phase ≠ .pending) (base : held.effectivePriority = held.priority)
    (works : machine.recordTrace.runCurrent = .ok (work, next)) :
    ∃ served, machine.Serves holder served next ∧
      ((work = .ran holder ∧ next.events = machine.events ∧
          next.cpu = { machine.cpu with sliceUsed := machine.cpu.sliceUsed + 1 }) ∨
        (work = .completed holder ∧ next.cpu = { last := machine.cpu.last } ∧
          next.events = machine.events ++ [.complete holder (machine.now + 1)])) := by
  rcases work_ok works with ⟨nobody, _⟩ | ⟨id, job, isCurrent, isPresent, rest⟩
  · cases nobody.symm.trans current
  · cases isCurrent.symm.trans current
    cases isPresent.symm.trans present
    rcases rest with ⟨_, _, isRan, rfl⟩ | ⟨_, isCompleted, completed, booked, rfl⟩
    · exact ⟨{ held with remaining := held.remaining - 1 },
        ⟨rfl, job?_put present _, started, base⟩, .inl ⟨isRan, rfl, rfl⟩⟩
    · obtain ⟨waiting, turnaround, rfl⟩ := completeBooks_ok booked
      exact ⟨_, ⟨rfl, job?_put present _, by simp, base⟩, .inr ⟨isCompleted, rfl, rfl⟩⟩

theorem Scheduler.aged_of_endSlice {worked : Machine} {holder : Nat} {served : Job}
    (grows : 0 < step) (nodup : machine.ready.ids.Nodup) (absent : holder ∉ machine.ready.ids)
    (serves : machine.Serves holder served worked)
    (ends : (agingRoundRobin quantum step).endSlice worked = .ok next) :
    (∃ jobs ready, next = { worked with jobs := jobs, ready := ready }) ∧
      next.ready.ids.Perm machine.ready.ids ∧
      ∀ other, next.job? other =
        if other ∈ machine.ready.ids then (machine.job? other).map (·.aged step)
        else if other = holder then some served else machine.job? other := by
  rw [← serves.ready] at nodup
  obtain ⟨same, queued, aged⟩ := endSlice_ok nodup ends
  have gains : (agingRoundRobin quantum step).afterSlice = (·.aged step) := by
    funext job
    exact if_neg (Nat.ne_of_gt grows)
  rw [serves.ready] at queued aged
  refine ⟨same, queued, fun other => ?_⟩
  rw [aged, gains, serves.jobs]
  split
  next waits =>
    have different : other ≠ holder := fun isHolder => absent (isHolder ▸ waits)
    rw [if_neg different]
  next => rfl

namespace Fair

theorem requeueExpired (fair : Fair workload quantum step job (slicing.seen machine) machine)
    (grows : 0 < step) (positive : 0 < quantum) (submitted : job ∈ Job.ofWorkload workload)
    (settled : machine.Settled workload) (nextOrder : next.Orderly workload machine.now [])
    (requeues : (Scheduler.agingRoundRobin quantum step).requeueExpired machine = .ok next) :
    ∃ news, next.events = machine.events ++ news ∧ next.cpu.sliceExpired = false ∧
      Fair workload quantum step job
        ((stamped machine.now news).foldl Slicing.after slicing) next := by
  rcases Scheduler.requeueExpired_ok requeues with
    ⟨stays, rfl⟩ | ⟨id, found, ready, current, expired, present, absent, entered, rfl⟩
  · have unexpired : next.cpu.sliceExpired = false := stays.elim fair.idle id
    refine ⟨[], by simp, unexpired, ?_⟩
    simpa [Slicing.seen, unexpired] using fair
  · have isSeen : slicing.seen machine = slicing.close machine.now := by
      simp [Slicing.seen, expired]
    rw [isSeen] at fair
    have resting : (slicing.close machine.now).going = none := by
      simpa [expired] using fair.going
    have runs := settled.phase_of_current current present
    refine ⟨[.sliceExpired id], rfl, rfl, ?_⟩
    change Fair workload quantum step job (slicing.close machine.now) _
    refine fair.join grows positive submitted settled.toBooked nextOrder
      (Machine.joins_released present (by simp [runs]) absent entered _) ?_ (.inr ⟨resting, rfl⟩)
    intro own
    exact fair.expired expired (own ▸ current)

theorem dispatch (fair : Fair workload quantum step job slicing machine) (positive : 0 < quantum)
    (unsaturated : job.priority + step * turnLimit workload step job ≤ prioritySize - 1)
    (submitted : job ∈ Job.ofWorkload workload)
    (settled : machine.Settled workload) (nextOrder : next.Orderly workload next.now [])
    (fresh : machine.FreshRanks (.agingRoundRobin quantum step))
    (unexpired : machine.cpu.sliceExpired = false)
    (dispatches : (Scheduler.agingRoundRobin quantum step).dispatch machine = .ok next) :
    ∃ news, next.events = machine.events ++ news ∧ next.cpu.sliceExpired = false ∧
      Fair workload quantum step job
        ((stamped machine.now news).foldl Slicing.after slicing) next := by
  have same (isSame : next = machine) :
      ∃ news, next.events = machine.events ++ news ∧ next.cpu.sliceExpired = false ∧
        Fair workload quantum step job
          ((stamped machine.now news).foldl Slicing.after slicing) next := by
    subst isSame
    exact ⟨[], by simp, unexpired, fair⟩
  rw [Scheduler.dispatch] at dispatches
  cases current : machine.cpu.current with
  | some id =>
      rw [current] at dispatches
      cases dispatches
      exact same rfl
  | none =>
      rw [current] at dispatches
      rcases Scheduler.fillCpu_ok dispatches with
        ⟨_, isSame⟩ | ⟨id, first, started, picked, absent, present, booked, rfl⟩
      · exact same isSame
      · obtain ⟨firstStart, waiting, response, isStarted⟩ := Machine.startBooks_ok booked
        have leaves := Machine.leaves_given picked present absent started
        refine ⟨[.dispatch id machine.cpu.last (machine.switchesTo id)], rfl, rfl, ?_⟩
        refine fair.start positive unsaturated submitted settled.toBooked nextOrder current leaves
          ?_ ?_ ?_ rfl
        · intro found isFound waits small
          exact Scheduler.effectivePriority_le_of_rank (fresh.not_rank_lt picked present waits isFound)
            small
        · rw [isStarted]
        · rw [isStarted]
          rfl

theorem work {worked closed : Machine} {work : Work}
    (fair : Fair workload quantum step job slicing machine) (grows : 0 < step)
    (positive : 0 < quantum)
    (unsaturated : job.priority + step * turnLimit workload step job ≤ prioritySize - 1)
    (orderly : machine.Orderly workload machine.now [])
    (unexpired : machine.cpu.sliceExpired = false)
    (idle : machine.cpu.current = none → machine.ready.ids = [])
    (works : machine.recordTrace.runCurrent = .ok (work, worked))
    (closes : (Scheduler.agingRoundRobin quantum step).closeTick work worked = .ok closed)
    (isNext : next = (closed.advance 1).drainEvents.2) (later : next.now = machine.now + 1) :
    ∃ news, closed.events = machine.events ++ news ∧
      Fair workload quantum step job
        (((stamped machine.now news).foldl Slicing.after slicing).seen next) next := by
  rcases Machine.work_ok works with ⟨nobody, rfl, rfl⟩ | ⟨holder, held, current, present, rest⟩
  · cases closes
    have stillUnexpired : next.cpu.sliceExpired = false := isNext ▸ unexpired
    refine ⟨[.cpuIdle 1], rfl, ?_⟩
    rw [Slicing.seen, if_neg (by simp [stillUnexpired])]
    exact fair.rests nobody (idle nobody) (isNext ▸ rfl) (isNext ▸ rfl) (isNext ▸ rfl) (by omega)
  · obtain ⟨start, going⟩ : ∃ start, slicing.going = some (holder, start) := by
      simpa [unexpired, current] using fair.going
    have runs := orderly.phase_of_current current present
    obtain ⟨served, serves, rest⟩ := Machine.serves_of_work current present (by simp [runs])
      (fair.base holder held present (by simp [runs])) works
    have absent := orderly.current_absent current
    have nodup := orderly.placement.nodup
    rcases rest with ⟨rfl, sameEvents, cpu⟩ | ⟨rfl, cpu, events⟩
    · rcases Scheduler.closeTick_ok closes with
        ⟨rfl, isIdle | ⟨_, _, left⟩⟩ | ⟨⟨_, isCompleted⟩, _⟩ | ⟨_, _, _, _, _, ends⟩
      · cases isIdle
      · have used := left quantum rfl
        rw [cpu] at used
        have nextCpu : next.cpu = { machine.cpu with sliceUsed := machine.cpu.sliceUsed + 1 } :=
          isNext ▸ cpu
        refine ⟨[], by simp [sameEvents], ?_⟩
        rw [Slicing.seen, if_neg (by simp [nextCpu, unexpired])]
        have goesOn : machine.Serves holder served next :=
          ⟨isNext ▸ serves.ready, isNext ▸ serves.jobs, serves.started, serves.base⟩
        exact fair.goOn orderly going current unexpired goesOn later nextCpu used
      · cases isCompleted
      · have marked : machine.Serves holder served worked.markExpired :=
          ⟨serves.ready, serves.jobs, serves.started, serves.base⟩
        obtain ⟨⟨jobs, ready, rfl⟩, queued, aged⟩ :=
          Scheduler.aged_of_endSlice grows nodup absent marked ends
        have expired : next.cpu.sliceExpired = true := isNext ▸ rfl
        have stays : next.cpu.current = worked.cpu.current := isNext ▸ rfl
        refine ⟨[], by simp [Machine.markExpired, sameEvents], ?_⟩
        rw [Slicing.seen, if_pos expired]
        change Fair workload quantum step job (slicing.close next.now) next
        rw [Slicing.close_of_going going]
        exact fair.endSlice positive unsaturated orderly going current unexpired later
          (isNext ▸ queued) (isNext ▸ aged) serves.started serves.base
          (.inl ⟨by rw [stays, cpu, current], expired⟩)
    · rcases Scheduler.closeTick_ok closes with
        ⟨_, isIdle | ⟨_, isRan, _⟩⟩ | ⟨_, ends⟩ | ⟨_, _, isRan, _, _, _⟩
      · cases isIdle
      · cases isRan
      · obtain ⟨⟨jobs, ready, rfl⟩, queued, aged⟩ :=
          Scheduler.aged_of_endSlice grows nodup absent serves ends
        have nextCpu : next.cpu = { last := machine.cpu.last } := isNext ▸ cpu
        refine ⟨[.complete holder (machine.now + 1)], events, ?_⟩
        rw [Slicing.seen, if_neg (by simp [nextCpu])]
        change Fair workload quantum step job (slicing.close (machine.now + 1)) next
        rw [Slicing.close_of_going going, ← later]
        exact fair.endSlice positive unsaturated orderly going current unexpired later
          (isNext ▸ queued) (isNext ▸ aged) serves.started serves.base (.inr nextCpu)
      · cases isRan

end Fair

theorem Fair.wake {kernel next : Kernel} {woken awaited : List Job} {arriving : Job}
    {slicing : Slicing} (fair : Fair workload quantum step job slicing kernel.machine)
    (grows : 0 < step) (positive : 0 < quantum) (submitted : job ∈ Job.ofWorkload workload)
    (conserving : kernel.Conserving workload woken (arriving :: awaited))
    (come : arriving.arrival ≤ kernel.machine.now) (wakes : kernel.wake arriving.id = .ok next) :
    Fair workload quantum step job slicing next.machine := by
  obtain ⟨_, wakesOne, conserves, woke⟩ := conserving.wake come
  cases wakesOne.symm.trans wakes
  have sameNow := woke.now
  have nextOrder := conserves.orderly.settled.toOrderly
  obtain ⟨found, ready, present, isPending, absent, entered, rfl⟩ := Kernel.wake_ok wakes
  have joins := Machine.joins_woken present isPending absent entered
  have booked := conserving.orderly.settled.toBooked
  refine fair.join grows positive submitted booked (sameNow ▸ nextOrder) joins ?_ (.inl rfl)
  intro own
  have unstarted : ∀ slice ∈ slicing.ended, slice.job ≠ job.id := by
    intro slice member isJob
    refine fair.started slice member (Machine.phase?_eq_some_iff.mpr ⟨found, ?_, isPending⟩)
    rw [isJob, ← own, present]
  obtain ⟨notLater, isDue⟩ := conserving.due arriving List.mem_cons_self
  obtain ⟨same, isSame, rfl⟩ := booked.exists_submitted submitted
  cases (own ▸ isDue).symm.trans isSame
  exact (waitingSince_of_unstarted unstarted).trans (Nat.le_antisymm come notLater)

namespace Kernel

theorem maintained_fair (grows : 0 < step) (positive : 0 < quantum)
    (submitted : job ∈ Job.ofWorkload workload)
    (unsaturated : job.priority + step * turnLimit workload step job ≤ prioritySize - 1) :
    Maintained workload (.agingRoundRobin quantum step) fun history kernel =>
      kernel.machine.FreshRanks (.agingRoundRobin quantum step) ∧
        Fair workload quantum step job ((Slicing.ofHistory history).seen kernel.machine)
          kernel.machine where
  wake := by
    intro history kernel next woken arriving awaited conserving scheduled come wakes ⟨fresh, fair⟩
    have stillFresh := wake_freshRanks (scheduled ▸ fresh) wakes
    refine ⟨scheduled ▸ stillFresh, ?_⟩
    have woke := fair.wake grows positive submitted conserving come wakes
    obtain ⟨found, ready, _, _, _, _, rfl⟩ := wake_ok wakes
    rw [Slicing.ofHistory_append]
    exact woke
  tick := by
    intro history kernel woken awaited requeued started work worked closed news
      conserving scheduled _ phases isNews _ change ⟨fresh, fair⟩
    obtain ⟨requeuedFresh, _, closedFresh⟩ := phases.freshRanks (scheduled ▸ fresh)
    refine ⟨scheduled ▸ closedFresh, ?_⟩
    have requeueNow : requeued.now = kernel.machine.now := phases.requeue.now
    have startNow : started.now = kernel.machine.now := phases.start.now
    have requeues := phases.requeues
    have dispatches := phases.dispatches
    have closes := phases.closes
    rw [scheduled] at requeues dispatches closes requeuedFresh
    obtain ⟨expired, events, unexpired, fairRequeued⟩ :=
      fair.requeueExpired grows positive submitted conserving.orderly.settled
        (requeueNow ▸ phases.settled.toOrderly) requeues
    obtain ⟨dispatched, moreEvents, stillUnexpired, fairStarted⟩ :=
      fairRequeued.dispatch positive unsaturated submitted phases.settled phases.startedOrder
        requeuedFresh unexpired dispatches
    obtain ⟨ended, allEvents, fairClosed⟩ :=
      fairStarted.work grows positive unsaturated phases.startedOrder stillUnexpired phases.idle
        phases.works closes rfl (by rw [startNow]; exact change.now)
    have whole : kernel.machine.events ++ expired ++ dispatched ++ ended =
        kernel.machine.events ++ news := by
      rw [← events, ← moreEvents, ← allEvents, isNews]
    rw [Slicing.ofHistory_phases whole]
    rw [requeueNow, startNow] at fairClosed
    exact fairClosed
  rest := by
    intro history kernel woken awaited ticks time _ _ atRest _ ⟨fresh, fair⟩
    refine ⟨fresh, ?_⟩
    have unexpired := fair.idle atRest.idle
    rw [Slicing.seen, if_neg (by simp [unexpired])] at fair
    rw [Slicing.seen, if_neg (by simp [Kernel.rested, Machine.rested, unexpired]),
      Slicing.ofHistory_append]
    exact fair.rests atRest.idle atRest.empty rfl rfl rfl (Nat.le_add_right _ _)

theorem initial_fair (workload : List Spec) (step : Nat) (job : Job) (positive : 0 < quantum) :
    Fair workload quantum step job {} (initial workload (.agingRoundRobin quantum step)).machine where
  going := rfl
  begun := by simp
  ended := by simp
  started := by simp
  idle := fun _ => rfl
  used := fun _ => positive
  base := by
    intro id found present _
    obtain ⟨spec, _, rfl⟩ := Machine.job?_ofWorkload present
    rfl
  expired := by simp [initial, Machine.ofWorkload]
  waited := by simp [waitingPeriods, gaps]
  running := by simp
  waiting := by
    intro waits
    have empty := ids_emptyQueue (.agingRoundRobin quantum step)
    simp [initial, Machine.ofWorkload, empty] at waits

end Kernel

variable {config : Config} {schedule : Schedule}

theorem bounded_of_simulate (ran : simulate workload config .agingRoundRobin = .ok schedule)
    (given : config.requiredQuantum = .ok quantum) (positive : 0 < quantum)
    (grows : 0 < config.agingStep) (submitted : job ∈ Job.ofWorkload workload)
    (unsaturated : job.priority + config.agingStep * turnLimit workload config.agingStep job ≤
      prioritySize - 1) :
    ∀ period ∈ waitingPeriods (slices workload config .agingRoundRobin) job,
      Bounded workload quantum config.agingStep (slices workload config .agingRoundRobin) job
        period := by
  have decides : Scheduler.ofPolicy .agingRoundRobin config =
      .ok (.agingRoundRobin quantum config.agingStep) := by
    simp [Scheduler.ofPolicy, given, Except.map]
  have initially : (Kernel.initial workload
      (.agingRoundRobin quantum config.agingStep)).machine.FreshRanks
        (.agingRoundRobin quantum config.agingStep) :=
    Machine.ofWorkload_freshRanks ..
  obtain ⟨last, woken, conserving, _, finished, _, _, fair⟩ :=
    (Kernel.maintained_fair grows positive submitted unsaturated).simulate decides
      ⟨initially, Kernel.initial_fair workload config.agingStep job positive⟩ ran
  have unexpired := fair.idle (conserving.orderly.settled.current_of_allFinished finished)
  have waited := fair.waited
  rw [Slicing.seen, if_neg (by simp [unexpired])] at waited
  exact fun period member => (waited period member).2

/-- Aging bounds every wait of a job, unless its priority could grow beyond its word. -/
theorem simulate_aging_bounds_waiting {quantum : UInt64}
    (ran : simulate workload config .agingRoundRobin = .ok schedule)
    (given : config.quantum = some quantum) (grows : 1 ≤ config.agingStep) :
    ∀ job ∈ schedule.jobs,
      job.priority + turnLimit workload config.agingStep job * config.agingStep ≤
        prioritySize - 1 →
      ∀ period ∈ waitingPeriods (slices workload config .agingRoundRobin) job,
        period.1 ≤ period.2 ∧
          rivals (slices workload config .agingRoundRobin) job.id period ≤
            turnLimit workload config.agingStep job ∧
          period.2 - period.1 ≤ turnLimit workload config.agingStep job * quantum.toNat := by
  obtain ⟨scheduler, decides⟩ := exists_scheduler_of_simulate ran
  have notZero : quantum ≠ 0 := by
    rintro rfl
    simp [Scheduler.ofPolicy, Config.requiredQuantum, given, Except.map] at decides
  have required : config.requiredQuantum = .ok quantum.toNat := by
    simp [Config.requiredQuantum, given, notZero]
  have positive : 0 < quantum.toNat :=
    Nat.pos_of_ne_zero fun zero => notZero (UInt64.toNat_inj.mp zero)
  intro job isJob unsaturated period member
  rw [Nat.mul_comm] at unsaturated
  have bounded := bounded_of_simulate ran required positive grows (blank_mem_of_simulate ran isJob)
    unsaturated period member
  exact ⟨bounded.ordered, bounded.rivals_le, bounded.lasts⟩

/-- The job that matters least waits for three turns of the others, of four that it would
have to wait for. -/
theorem simulate_aging_bounds_waiting_outgrown :
    ∃ schedule,
      simulate [⟨0, 4, 2⟩, ⟨0, 2, 0⟩, ⟨1, 3, 2⟩] { quantum := some 2, maxTicks := 20 }
        .agingRoundRobin = .ok schedule ∧
      schedule.timeline =
        [some 1, some 1, some 3, some 3, some 1, some 1, some 2, some 2, some 3] ∧
      waitingPeriods (slices [⟨0, 4, 2⟩, ⟨0, 2, 0⟩, ⟨1, 3, 2⟩]
        { quantum := some 2, maxTicks := 20 } .agingRoundRobin) (.ofSpec 2 ⟨0, 2, 0⟩) = [(0, 6)] ∧
      turnLimit [⟨0, 4, 2⟩, ⟨0, 2, 0⟩, ⟨1, 3, 2⟩] 1 (.ofSpec 2 ⟨0, 2, 0⟩) = 4 ∧
      ∀ job ∈ schedule.jobs,
        ∀ period ∈ waitingPeriods (slices [⟨0, 4, 2⟩, ⟨0, 2, 0⟩, ⟨1, 3, 2⟩]
            { quantum := some 2, maxTicks := 20 } .agingRoundRobin) job,
          period.1 ≤ period.2 ∧
            rivals (slices [⟨0, 4, 2⟩, ⟨0, 2, 0⟩, ⟨1, 3, 2⟩]
                { quantum := some 2, maxTicks := 20 } .agingRoundRobin) job.id period ≤
              turnLimit [⟨0, 4, 2⟩, ⟨0, 2, 0⟩, ⟨1, 3, 2⟩] 1 job ∧
            period.2 - period.1 ≤ turnLimit [⟨0, 4, 2⟩, ⟨0, 2, 0⟩, ⟨1, 3, 2⟩] 1 job * 2 := by
  obtain ⟨schedule, ran, timeline⟩ := exists_of_timeline
    (show (simulate [⟨0, 4, 2⟩, ⟨0, 2, 0⟩, ⟨1, 3, 2⟩] { quantum := some 2, maxTicks := 20 }
      .agingRoundRobin).toOption.map Schedule.timeline =
        some [some 1, some 1, some 3, some 3, some 1, some 1, some 2, some 2, some 3] by
          decide +kernel)
  have unsaturated : ∀ job ∈ Job.ofWorkload [⟨0, 4, 2⟩, ⟨0, 2, 0⟩, ⟨1, 3, 2⟩],
      job.priority + turnLimit [⟨0, 4, 2⟩, ⟨0, 2, 0⟩, ⟨1, 3, 2⟩] 1 job * 1 ≤ prioritySize - 1 := by
    decide +kernel
  refine ⟨schedule, ran, timeline, by decide +kernel, by decide +kernel, fun job isJob => ?_⟩
  exact simulate_aging_bounds_waiting ran rfl (Nat.le_refl 1) job isJob
    (unsaturated job.blank (blank_mem_of_simulate ran isJob))

end CpuScheduling
