import CpuScheduling.Proofs.Simulation.Effects
import CpuScheduling.Proofs.Simulation.Outcome

/-!
Whole runs, event by event.  The history of a run is what its steps report.  What
holds at first and is kept by every wake, every tick and every idle wait holds of the
whole history and of the machine at its end.
-/

namespace CpuScheduling

def stamped (time : Nat) (events : List Event) : List (Nat × Event) :=
  events.map fun event => (time, event)

@[simp]
theorem stamped_nil (time : Nat) : stamped time [] = [] := rfl

@[simp]
theorem stamped_append (time : Nat) (first second : List Event) :
    stamped time (first ++ second) = stamped time first ++ stamped time second := by
  simp [stamped]

namespace Simulation

def historyFor : Nat → Simulation → List (Nat × Event)
  | 0, _ => []
  | fuel + 1, simulation =>
      if simulation.allFinished || simulation.maxTicks ≤ simulation.now then []
      else
        match simulation.step with
        | .ok (events, next) => stamped simulation.now events ++ historyFor fuel next
        | .error _ => []

/-- What the run of a workload reports, step by step. -/
def history (workload : List Spec) (config : Config) (policy : Policy) : List (Nat × Event) :=
  match ofWorkload workload config policy with
  | .ok first => historyFor (first.maxTicks - first.now) first
  | .error _ => []

end Simulation

def Kernel.initial (workload : List Spec) (scheduler : Scheduler) : Kernel where
  machine := .ofWorkload workload scheduler.emptyQueue !scheduler.isPreemptive
  scheduler := scheduler

theorem Simulation.exists_initial {workload : List Spec} {config : Config} {policy : Policy}
    {first : Simulation} (created : ofWorkload workload config policy = .ok first) :
    ∃ scheduler, Scheduler.ofPolicy policy config = .ok scheduler ∧
      first.kernel = .initial workload scheduler := by
  obtain ⟨_, _, creates⟩ := bind_eq_ok_iff.mp created
  obtain ⟨_, kernels, isFirst⟩ := bind_eq_ok_iff.mp creates
  obtain ⟨scheduler, decides, isKernel⟩ := bind_eq_ok_iff.mp kernels
  cases isFirst
  cases isKernel
  exact ⟨scheduler, decides, rfl⟩

/-- What holds of a history and a kernel is kept by all that a run does.  In the history
stand also those events that nobody has collected yet. -/
structure Kernel.Maintained (workload : List Spec) (scheduler : Scheduler)
    (holds : List (Nat × Event) → Kernel → Prop) : Prop where
  wake : ∀ {history kernel next woken job awaited},
    kernel.Conserving workload woken (job :: awaited) → kernel.scheduler = scheduler →
    job.arrival ≤ kernel.machine.now → kernel.wake job.id = .ok next → holds history kernel →
    holds (history ++ [(kernel.machine.now, .arrival job.id)]) next
  tick : ∀ {history kernel woken awaited requeued started work worked closed news},
    kernel.Conserving workload woken awaited → kernel.scheduler = scheduler →
    (∀ job ∈ awaited, kernel.machine.now < job.arrival) →
    Kernel.Phases workload kernel requeued started work worked closed →
    closed.events = kernel.machine.events ++ news →
    (kernel.afterTick closed).Conserving workload woken awaited →
    Kernel.Ticked started.cpu.current kernel (kernel.afterTick closed) → holds history kernel →
    holds (history ++ stamped kernel.machine.now news) (kernel.afterTick closed)
  rest : ∀ {history kernel woken awaited ticks} (time : Nat),
    kernel.Conserving workload woken awaited → kernel.scheduler = scheduler → kernel.AtRest →
    (∀ job ∈ awaited, kernel.machine.now + ticks ≤ job.arrival) → holds history kernel →
    holds (history ++ [(time, .cpuIdle ticks)]) (kernel.rested ticks 0)

variable {workload : List Spec} {config : Config} {policy : Policy} {scheduler : Scheduler}
  {schedule : Schedule} {holds : List (Nat × Event) → Kernel → Prop}

namespace Kernel.Maintained

open Simulation (Passes)

variable (maintained : Maintained workload scheduler holds)

include maintained

theorem wakeArrived {kernel next : Kernel} {woken awaited : List Job} {rest : List Nat}
    {history : List (Nat × Event)} (conserving : kernel.Conserving workload woken awaited)
    (scheduled : kernel.scheduler = scheduler) (held : holds history kernel)
    (wakes : Simulation.wakeArrived kernel (awaited.map (·.id)) = .ok (next, rest)) :
    ∃ arrived, next.machine.events = kernel.machine.events ++ arrived ∧
      holds (history ++ stamped kernel.machine.now arrived) next := by
  induction awaited generalizing kernel woken history with
  | nil =>
      cases wakes
      exact ⟨[], by simp, by simpa using held⟩
  | cons job others inductionHypothesis =>
      have present := (conserving.due job List.mem_cons_self).2
      rw [List.map_cons, Simulation.wakeArrived, Machine.job_of_job? present] at wakes
      simp only [bind, Except.bind] at wakes
      by_cases come : job.arrival ≤ kernel.machine.now
      · obtain ⟨awake, wakesOne, conserves, woke⟩ := conserving.wake come
        rw [if_pos come, wakesOne] at wakes
        have first := maintained.wake conserving scheduled come wakesOne held
        obtain ⟨arrived, events, all⟩ :=
          inductionHypothesis conserves (woke.scheduler.trans scheduled) first wakes
        obtain ⟨_, ready, _, _, _, _, isAwake⟩ := wake_ok wakesOne
        refine ⟨.arrival job.id :: arrived, ?_, ?_⟩
        · rw [events, isAwake]
          simp [Kernel.woken, Machine.emit, Machine.put]
        · rw [woke.now] at all
          simpa [stamped] using all
      · rw [if_neg come] at wakes
        cases wakes
        exact ⟨[], by simp, by simpa using held⟩

theorem step {simulation next : Simulation} {events : List Event}
    {history : List (Nat × Event)} (underway : simulation.Underway workload)
    (scheduled : simulation.kernel.scheduler = scheduler)
    (collected : simulation.kernel.machine.events = [])
    (unfinished : simulation.allFinished = false)
    (held : holds history simulation.kernel) (steps : simulation.step = .ok (events, next)) :
    holds (history ++ stamped simulation.now events) next.kernel ∧
      next.kernel.machine.events = [] ∧ next.kernel.scheduler = scheduler := by
  obtain ⟨woken, awaited, fed, ticked, news, idle, rested, stages, rfl, rfl, _⟩ :=
    underway.exists_stages unfinished steps
  have sameNow := stages.sameNow
  obtain ⟨before, due, conserving, pending⟩ := underway.conserving
  have feeds := stages.feeds
  rw [pending] at feeds
  obtain ⟨arrived, fedEvents, fedHolds⟩ := maintained.wakeArrived conserving scheduled held feeds
  have fedScheduled := stages.sameScheduler.trans scheduled
  obtain ⟨requeued, started, work, worked, closed, phases, rfl, rfl, order, change⟩ :=
    stages.fedOrder.orderly.tick_ok stages.ticks
  obtain ⟨happened, isNews⟩ := phases.exists_news
  have ticks := maintained.tick stages.fedOrder fedScheduled stages.later phases isNews
    stages.tickedOrder change fedHolds
  have allNews : history ++ stamped simulation.now arrived ++ stamped fed.machine.now happened =
      history ++ stamped simulation.now closed.events := by
    rw [isNews, fedEvents, collected, sameNow, List.nil_append, stamped_append, List.append_assoc]
  have isNow : simulation.kernel.machine.now = simulation.now := rfl
  rw [isNow, allNews] at ticks
  have tickedScheduled := stages.tickedScheduler.trans scheduled
  rcases Simulation.skipIdle_ok (tick_collected stages.ticks) stages.waits with
    ⟨rfl, rfl⟩ | ⟨id, rest, job, count, atRest, isPending, present, _, target, rfl, rfl⟩
  · exact ⟨by simpa using ticks, rfl, tickedScheduled⟩
  · refine ⟨?_, rfl, tickedScheduled⟩
    have before : ∀ other ∈ awaited,
        (fed.afterTick closed).machine.now + count ≤ other.arrival := by
      cases awaited with
      | nil => simp
      | cons head others =>
          cases isPending
          have isHead := (stages.tickedOrder.due head List.mem_cons_self).2
          cases present.symm.trans isHead
          intro other member
          have notEarlier := stages.tickedOrder.head_first other member
          omega
    have rests := maintained.rest simulation.now stages.tickedOrder tickedScheduled atRest before
      ticks
    simpa [stamped] using rests

theorem runFor {simulation : Simulation} {history : List (Nat × Event)} (fuel : Nat)
    (orderly : simulation.Orderly workload) (scheduled : simulation.kernel.scheduler = scheduler)
    (collected : simulation.kernel.machine.events = []) (held : holds history simulation.kernel)
    (enough : simulation.maxTicks - simulation.now ≤ fuel) :
    ∃ last : Simulation, last.Orderly workload ∧ last.Ended ∧
      Simulation.runFor fuel simulation = last.outcome ∧
      holds (history ++ simulation.historyFor fuel) last.kernel := by
  induction fuel generalizing simulation history with
  | zero =>
      have ended : simulation.Ended := .inr (by omega)
      exact ⟨simulation, orderly, ended, Simulation.runFor_of_ended ended 0,
        by simpa [Simulation.historyFor] using held⟩
  | succ fuel inductionHypothesis =>
      by_cases ended : simulation.Ended
      · refine ⟨simulation, orderly, ended, Simulation.runFor_of_ended ended (fuel + 1), ?_⟩
        have nothing : simulation.historyFor (fuel + 1) = [] := by
          rw [Simulation.historyFor, if_pos (by simpa [Simulation.Ended] using ended)]
        rwa [nothing, List.append_nil]
      · obtain ⟨unfinished, room⟩ := not_or.mp ended
        rw [Bool.not_eq_true] at unfinished
        rw [Nat.not_le] at room
        obtain ⟨events, next, steps, order, later, sameLimit, _⟩ := orderly.step unfinished room
        obtain ⟨stepped, drained, sameScheduler⟩ :=
          maintained.step orderly.toUnderway scheduled collected unfinished held steps
        obtain ⟨last, lastOrder, lastEnded, runs, all⟩ :=
          inductionHypothesis order sameScheduler drained stepped (by omega)
        have goesOn : simulation.historyFor (fuel + 1) =
            stamped simulation.now events ++ next.historyFor fuel := by
          rw [Simulation.historyFor, if_neg (by simp [unfinished, room]), steps]
        refine ⟨last, lastOrder, lastEnded,
          (Simulation.runFor_succ unfinished room steps fuel).trans runs, ?_⟩
        rwa [goesOn, ← List.append_assoc]

/-- What holds at first and is maintained holds at the end of a run that completes. -/
theorem simulate (decides : Scheduler.ofPolicy policy config = .ok scheduler)
    (initially : holds [] (initial workload scheduler))
    (ran : CpuScheduling.simulate workload config policy = .ok schedule) :
    ∃ last : Kernel, ∃ woken, last.Conserving workload woken [] ∧
      last.machine.now = makespan workload ∧ last.machine.allFinished = true ∧
      Simulation.Reports last.machine schedule ∧
      holds (Simulation.history workload config policy) last := by
  cases valid : validate workload with
  | error refusal => simp [simulate_of_invalid valid] at ran
  | ok =>
      cases created : Simulation.ofWorkload workload config policy with
      | error refusal => simp [simulate_of_refused valid created] at ran
      | ok first =>
          obtain ⟨orderly, unfinished, _⟩ := Simulation.ofWorkload_orderly created valid
          obtain ⟨chosen, isChosen, isInitial⟩ := Simulation.exists_initial created
          cases decides.symm.trans isChosen
          obtain ⟨last, lastOrder, ended, runs, held⟩ :=
            maintained.runFor (first.maxTicks - first.now) orderly (by rw [isInitial]; rfl)
              (by rw [isInitial]; rfl) (isInitial ▸ initially) (Nat.le_refl _)
          have isRun : CpuScheduling.simulate workload config policy = last.outcome := by
            simp [CpuScheduling.simulate, valid, created, refusing, Simulation.run, runs, bind,
              Except.bind]
          have nonempty := (Simulation.validate_eq_ok_iff.mp valid).1
          rcases lastOrder.outcome_cases ended nonempty with
            ⟨inTime, finished, reported, outcome, reports⟩ | ⟨_, outcome⟩
          · cases (isRun.trans outcome).symm.trans ran
            obtain ⟨woken, awaited, conserving, _⟩ := lastOrder.conserving
            obtain ⟨rfl, _⟩ := conserving.makespan_le finished
            refine ⟨last.kernel, woken, conserving, inTime, finished, reports, ?_⟩
            simpa [Simulation.history, created] using held
          · simp [isRun, outcome] at ran

end Kernel.Maintained

theorem exists_scheduler_of_simulate (ran : simulate workload config policy = .ok schedule) :
    ∃ scheduler, Scheduler.ofPolicy policy config = .ok scheduler := by
  cases valid : validate workload with
  | error refusal => simp [simulate_of_invalid valid] at ran
  | ok =>
      cases created : Simulation.ofWorkload workload config policy with
      | error refusal => simp [simulate_of_refused valid created] at ran
      | ok first =>
          obtain ⟨scheduler, decides, _⟩ := Simulation.exists_initial created
          exact ⟨scheduler, decides⟩

end CpuScheduling
