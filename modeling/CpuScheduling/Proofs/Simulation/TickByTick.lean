import CpuScheduling.Proofs.Simulation.Effects
import CpuScheduling.Proofs.Simulation.Run

/-!
Idle waits are a short cut.  A run that never waits, but lets every idle tick pass like
any other, comes to the same result: where a run waits once for the next arrival, this
one ticks at rest until then.
-/

namespace CpuScheduling

namespace Kernel

variable {kernel next : Kernel}

def audited (kernel : Kernel) (audits : Nat) : Kernel :=
  { kernel with audits := audits }

theorem wake_audited {id : Nat} (wakes : kernel.wake id = .ok next) (audits : Nat) :
    (kernel.audited audits).wake id = .ok (next.audited audits) := by
  simp only [Kernel.wake, bind_eq_ok_iff] at wakes ⊢
  obtain ⟨arrived, arrives, queued, enters, isNext⟩ := wakes
  cases isNext
  exact ⟨arrived, arrives, queued, enters, rfl⟩

theorem tick_audited {events : List Event} (ticks : kernel.tick = .ok (events, next))
    {audits : Nat} (room : audits + 1 < wordSize) :
    (kernel.audited audits).tick = .ok (events, next.audited (audits + 1)) := by
  simp only [Kernel.tick, bind_eq_ok_iff] at ticks ⊢
  obtain ⟨requeued, requeues, started, dispatches, ⟨work, worked⟩, works, closed, closes, counted,
    _, _, audit, isResult⟩ := ticks
  cases isResult
  exact ⟨requeued, requeues, started, dispatches, ⟨work, worked⟩, works, closed, closes, audits + 1,
    increment_eq_ok_iff.mpr ⟨room, rfl⟩, (), audit, rfl⟩

theorem Orderly.audited {workload : List Spec} (orderly : kernel.Orderly workload) {audits : Nat}
    (bound : audits ≤ kernel.machine.now) : (kernel.audited audits).Orderly workload where
  settled := orderly.settled
  fixes := orderly.fixes
  sliced := orderly.sliced
  room := orderly.room
  switches := orderly.switches
  sliceUsed := orderly.sliceUsed
  finished := orderly.finished
  audits := bound

end Kernel

namespace Simulation

/-- A step that does not wait: arrivals, and then one tick. -/
def tickOnce (simulation : Simulation) : Checked (List Event × Simulation) :=
  if simulation.allFinished then .ok ([], simulation)
  else do
    let (kernel, pending) ← wakeArrived simulation.kernel simulation.pending
    let (events, kernel) ← kernel.tick
    return (events, { simulation with kernel := kernel, pending := pending })

def runBy (step : Simulation → Checked (List Event × Simulation)) :
    Nat → Simulation → Except Failure Schedule
  | fuel, simulation =>
      if simulation.allFinished then checking simulation.schedule
      else if simulation.maxTicks ≤ simulation.now then
        .error (.refused (.divergence simulation.maxTicks))
      else
        match fuel with
        | 0 => .error (.broken .stalled)
        | fuel + 1 =>
            match step simulation with
            | .ok (_, next) => runBy step fuel next
            | .error fault => .error (.broken fault)

theorem runBy_step (fuel : Nat) (simulation : Simulation) :
    runBy step fuel simulation = runFor fuel simulation := by
  induction fuel generalizing simulation with
  | zero => rfl
  | succ fuel inductionHypothesis =>
      have sameRest : runBy step fuel = runFor fuel := funext inductionHypothesis
      rw [runBy, sameRest]
      rfl

inductive Plods : Nat → Simulation → Simulation → Prop where
  | refl (simulation : Simulation) : Plods 0 simulation simulation
  | tick {count : Nat} {simulation next last : Simulation} {events : List Event}
      (unfinished : simulation.allFinished = false) (room : simulation.now < simulation.maxTicks)
      (ticked : simulation.tickOnce = .ok (events, next)) (plods : Plods count next last) :
      Plods (count + 1) simulation last

variable {workload : List Spec} {simulation next last : Simulation} {count fuel : Nat}

theorem Plods.runBy (plods : Plods count simulation last) (fuel : Nat) :
    Simulation.runBy tickOnce (count + fuel) simulation = Simulation.runBy tickOnce fuel last := by
  induction plods with
  | refl => rw [Nat.zero_add]
  | tick unfinished room ticked _ inductionHypothesis =>
      rw [← inductionHypothesis, Nat.add_right_comm, Simulation.runBy, unfinished, ticked]
      simp [Nat.not_le_of_lt room]

def audited (simulation : Simulation) (audits : Nat) : Simulation :=
  { simulation with kernel := simulation.kernel.audited audits }

theorem wakeArrived_audited {kernel next : Kernel} {pending rest : List Nat}
    (wakes : wakeArrived kernel pending = .ok (next, rest)) (audits : Nat) :
    wakeArrived (kernel.audited audits) pending = .ok (next.audited audits, rest) := by
  induction pending generalizing kernel with
  | nil =>
      cases wakes
      rfl
  | cons id others inductionHypothesis =>
      simp only [wakeArrived, bind_eq_ok_iff] at wakes ⊢
      obtain ⟨job, present, wakes⟩ := wakes
      refine ⟨job, present, ?_⟩
      by_cases come : job.arrival ≤ kernel.machine.now
      · rw [if_pos come, bind_eq_ok_iff] at wakes
        rw [if_pos (by exact come), bind_eq_ok_iff]
        obtain ⟨woken, wakesOne, wakesOthers⟩ := wakes
        exact ⟨_, Kernel.wake_audited wakesOne audits, inductionHypothesis wakesOthers⟩
      · rw [if_neg come] at wakes
        rw [if_neg (by exact come)]
        cases wakes
        rfl

theorem plods_atRest {id : Nat} {job : Job} {rest : List Nat} (ticks : Nat)
    (atRest : simulation.kernel.AtRest) (orderly : simulation.kernel.Orderly workload)
    (unfinished : simulation.allFinished = false) (pending : simulation.pending = id :: rest)
    (present : simulation.kernel.machine.job? id = some job)
    (before : simulation.now + ticks ≤ job.arrival)
    (inTime : simulation.now + ticks ≤ simulation.maxTicks) (limit : simulation.maxTicks < wordSize) :
    Plods ticks simulation
      { simulation with kernel := simulation.kernel.rested ticks ticks } := by
  induction ticks generalizing simulation with
  | zero =>
      rw [atRest.rested_zero]
      exact .refl simulation
  | succ ticks inductionHypothesis =>
      have isNow : simulation.kernel.machine.now = simulation.now := rfl
      obtain ⟨tick, order⟩ := atRest.tick orderly (by omega)
      have notYet : ¬job.arrival ≤ simulation.kernel.machine.now := by omega
      have ticked : simulation.tickOnce = .ok ([.cpuIdle 1],
          { simulation with kernel := simulation.kernel.rested 1 1 }) := by
        simp [tickOnce, unfinished, pending, wakeArrived, Machine.job_of_job? present, notYet, tick,
          bind, Except.bind, pure, Except.pure]
      have later : simulation.now + 1 + ticks ≤ job.arrival ∧
          simulation.now + 1 + ticks ≤ simulation.maxTicks := by omega
      have others : Plods ticks { simulation with kernel := simulation.kernel.rested 1 1 }
          { simulation with kernel := (simulation.kernel.rested 1 1).rested ticks ticks } :=
        inductionHypothesis (atRest.stays 1 1) order unfinished pending present later.1 later.2
          limit
      rw [Kernel.rested_rested, Nat.add_comm 1] at others
      exact .tick unfinished (by omega) ticked others

/-- What a step does, ticks do that do not wait. -/
theorem Orderly.plods_of_step {events : List Event} {audits : Nat}
    (orderly : simulation.Orderly workload) (bound : audits ≤ simulation.now)
    (unfinished : simulation.allFinished = false) (room : simulation.now < simulation.maxTicks)
    (stepped : simulation.step = .ok (events, next)) :
    ∃ count lastAudits, Plods count (simulation.audited audits) (next.audited lastAudits) ∧
      next.now = simulation.now + count ∧ lastAudits ≤ next.now := by
  obtain ⟨woken, awaited, fed, ticked, news, idle, rested, stages, rfl, rfl, _⟩ :=
    orderly.exists_stages unfinished stepped
  have limit := orderly.limit
  have tickedNow := stages.tickedNow
  have once : (simulation.audited audits).tickOnce = .ok (news,
      { simulation with
        kernel := ticked.audited (audits + 1), pending := awaited.map (·.id) }) := by
    have wakesSame := wakeArrived_audited stages.feeds audits
    have ticksSame := Kernel.tick_audited stages.ticks (show audits + 1 < wordSize by omega)
    have sameFlag : (simulation.audited audits).allFinished = false := unfinished
    rw [tickOnce, if_neg (by simp [sameFlag])]
    simp only [audited, wakesSame, ticksSame, bind, Except.bind, pure, Except.pure]
  rcases skipIdle_ok (Kernel.tick_collected stages.ticks) stages.waits with
    ⟨_, rfl⟩ | ⟨id, rest, job, count, atRest, isPending, present, _, target, _, rfl⟩
  · refine ⟨1, audits + 1, .tick unfinished room once (.refl _), tickedNow, ?_⟩
    change audits + 1 ≤ rested.machine.now
    omega
  · have stillOpen : ticked.machine.allFinished = false := by
      refine Bool.eq_false_iff.mpr fun finished => ?_
      rw [(stages.tickedOrder.makespan_le finished).1] at isPending
      cases isPending
    have stays : (ticked.audited (audits + 1)).AtRest :=
      ⟨atRest.idle, atRest.empty, atRest.collected⟩
    have inTime : ticked.machine.now + count ≤ job.arrival ∧
        ticked.machine.now + count ≤ simulation.maxTicks := by omega
    have plods : Plods count
        { simulation with
          kernel := ticked.audited (audits + 1), pending := awaited.map (·.id) }
        { simulation with
          kernel := (ticked.audited (audits + 1)).rested count count
          pending := awaited.map (·.id) } :=
      plods_atRest count stays (stages.tickedOrder.orderly.audited (by omega)) stillOpen isPending
        present inTime.1 inTime.2 limit
    refine ⟨count + 1, audits + 1 + count, .tick unfinished room once plods, ?_, ?_⟩
    · change ticked.machine.now + count = simulation.now + (count + 1)
      omega
    · change audits + 1 + count ≤ ticked.machine.now + count
      omega

/-- A run that does not wait comes to the same result, however much fuel it is given. -/
theorem Orderly.runBy_tickOnce {audits more : Nat} (orderly : simulation.Orderly workload)
    (bound : audits ≤ simulation.now) (enough : simulation.maxTicks - simulation.now ≤ fuel)
    (enoughTicks : simulation.maxTicks - simulation.now ≤ more) :
    runBy tickOnce more (simulation.audited audits) = runFor fuel simulation := by
  have sameFlag : (simulation.audited audits).allFinished = simulation.allFinished := rfl
  have sameNow : (simulation.audited audits).now = simulation.now := rfl
  have sameLimit : (simulation.audited audits).maxTicks = simulation.maxTicks := rfl
  have sameSchedule : (simulation.audited audits).schedule = simulation.schedule := rfl
  induction fuel generalizing simulation audits more with
  | zero =>
      have atLimit : simulation.maxTicks ≤ simulation.now := by omega
      rw [runBy.eq_def, runFor]
      simp [sameFlag, sameNow, sameLimit, sameSchedule, atLimit]
  | succ fuel inductionHypothesis =>
      cases finished : simulation.allFinished with
      | true =>
          rw [runBy.eq_def, runFor]
          simp [sameFlag, sameSchedule, finished]
      | false =>
          by_cases atLimit : simulation.maxTicks ≤ simulation.now
          · rw [runBy.eq_def, runFor]
            simp [sameFlag, sameNow, sameLimit, finished, atLimit]
          · have room : simulation.now < simulation.maxTicks := by omega
            obtain ⟨events, next, steps, order, later, nextLimit, _⟩ := orderly.step finished room
            obtain ⟨count, lastAudits, plods, elapsed, nextBound⟩ :=
              orderly.plods_of_step bound finished room steps
            have inTime := order.inTime
            obtain ⟨left, rfl⟩ : ∃ left, more = count + left := ⟨more - count, by omega⟩
            rw [plods.runBy, inductionHypothesis order nextBound (by omega) (by omega) rfl rfl rfl rfl,
              runFor, finished, steps]
            simp [atLimit]

theorem allFinished_of_nil {config : Config} {policy : Policy}
    (created : ofWorkload [] config policy = .ok simulation) : simulation.allFinished = true := by
  obtain ⟨maxTicks, _, rest⟩ := bind_eq_ok_iff.mp created
  obtain ⟨kernel, creates, isFirst⟩ := bind_eq_ok_iff.mp rest
  obtain ⟨scheduler, _, isKernel⟩ := bind_eq_ok_iff.mp creates
  cases isFirst
  cases isKernel
  rfl

end Simulation

variable {workload : List Spec} {config : Config} {policy : Policy}

/-- Whether an idle CPU waits or ticks shows in no result and in no state. -/
theorem idleWait_unobservable (positive : ∀ spec ∈ workload, 0 < spec.service) :
    (∀ first fuel, Simulation.ofWorkload workload config policy = .ok first →
        first.maxTicks - first.now ≤ fuel →
        Simulation.runBy Simulation.tickOnce fuel first = first.run) ∧
      ∀ first kernel ticks, Kernel.ofWorkload workload config policy = .ok first →
        Kernel.Reachable first kernel → kernel.machine.cpu.current = none →
        kernel.machine.ready.ids = [] → 0 < ticks → kernel.machine.now + ticks < wordSize →
        ∃ waited,
          kernel.idleUntil (kernel.machine.now + ticks) = .ok ([.cpuIdle ticks], waited) ∧
          kernel.ticks ticks = .ok (List.replicate ticks (.cpuIdle 1),
            waited.audited (waited.audits + ticks)) := by
  constructor
  · intro first fuel created enough
    cases workload with
    | nil =>
        have finished := Simulation.allFinished_of_nil created
        rw [Simulation.runBy.eq_def, Simulation.run, Simulation.runFor.eq_def]
        simp [finished]
    | cons spec rest =>
        have valid := Simulation.validate_eq_ok_iff.mpr ⟨List.cons_ne_nil spec rest, positive⟩
        have orderly := (Simulation.ofWorkload_orderly created valid).1
        obtain ⟨woken, awaited, conserving, _⟩ := orderly.conserving
        exact orderly.runBy_tickOnce conserving.orderly.audits (Nat.le_refl _) enough
  · intro first kernel ticks created reachable idle empty someTicks room
    have atRest := reachable.atRest created idle empty
    have orderly := reachable.orderly (Kernel.ofWorkload_orderly created positive).1
    exact ⟨kernel.rested ticks 0, atRest.idleUntil someTicks, (atRest.ticks orderly ticks room).1⟩

/-- The second job arrives three ticks after the first one has completed. -/
theorem idleWait_unobservable_gap :
    ∃ first kernel,
      Simulation.ofWorkload [⟨0, 1, 0⟩, ⟨4, 1, 0⟩] { maxTicks := 10 } .fcfs = .ok first ∧
      (first.run.toOption.map Schedule.timeline = some [some 1, none, none, none, some 2]) ∧
      Simulation.runBy Simulation.tickOnce 10 first = first.run ∧
      first.kernel.performAll [.wake 1, .tick] = some kernel ∧
      ∃ waited, kernel.idleUntil 4 = .ok ([.cpuIdle 3], waited) ∧
        kernel.ticks 3 = .ok ([.cpuIdle 1, .cpuIdle 1, .cpuIdle 1],
          waited.audited (waited.audits + 3)) := by
  have positive : ∀ spec ∈ ([⟨0, 1, 0⟩, ⟨4, 1, 0⟩] : List Spec), 0 < spec.service := by decide
  have created : ∃ first kernel,
      Simulation.ofWorkload [⟨0, 1, 0⟩, ⟨4, 1, 0⟩] { maxTicks := 10 } .fcfs = .ok first ∧
      Kernel.ofWorkload [⟨0, 1, 0⟩, ⟨4, 1, 0⟩] { maxTicks := 10 } .fcfs = .ok first.kernel ∧
      (first.run.toOption.map Schedule.timeline = some [some 1, none, none, none, some 2]) ∧
      first.maxTicks - first.now ≤ 10 ∧ first.kernel.performAll [.wake 1, .tick] = some kernel ∧
      kernel.machine.cpu.current = none ∧ kernel.machine.ready.ids = [] ∧
      kernel.machine.now = 1 := ⟨_, _, rfl, rfl, by decide +kernel, by decide, rfl, rfl, rfl,
      rfl⟩
  obtain ⟨first, kernel, isFirst, isKernel, timeline, enough, calls, idle, empty, now⟩ := created
  obtain ⟨sameRun, sameState⟩ := idleWait_unobservable positive
  have reachable := Kernel.reachable_of_performAll .refl calls
  have waits := sameState first.kernel kernel 3 isKernel reachable idle empty (by decide) (by
    rw [now]
    decide)
  rw [now] at waits
  exact ⟨first, kernel, isFirst, timeline, sameRun first 10 isFirst enough, calls, waits⟩

end CpuScheduling
