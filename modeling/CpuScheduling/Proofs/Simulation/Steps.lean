import CpuScheduling.Proofs.Simulation.History

/-!
Runs that are driven step by step, with nobody to stop them at the limit on ticks.  What
every wake, every tick and every idle wait keeps is kept by any number of steps.  A first
step succeeds only where every job has something to do.
-/

namespace CpuScheduling

/-- So many steps in a row, and the events of all of them. -/
def Simulation.steps (simulation : Simulation) : Nat → Checked (List Event × Simulation)
  | 0 => .ok ([], simulation)
  | count + 1 => do
      let (events, next) ← simulation.step
      let (later, last) ← next.steps count
      return (events ++ later, last)

variable {workload : List Spec} {config : Config} {policy : Policy} {scheduler : Scheduler}
  {simulation first last : Simulation} {log : List Event} {count : Nat}

theorem Simulation.steps_succ {simulation middle next : Simulation} {log events : List Event}
    {count : Nat} (driven : simulation.steps count = .ok (log, middle))
    (stepped : middle.step = .ok (events, next)) :
    simulation.steps (count + 1) = .ok (log ++ events, next) := by
  induction count generalizing simulation log with
  | zero =>
      cases driven
      exact bind_eq_ok_iff.mpr ⟨_, stepped, by simp [Simulation.steps, bind, Except.bind, pure,
        Except.pure]⟩
  | succ count inductionHypothesis =>
      obtain ⟨⟨news, second⟩, first, others⟩ := bind_eq_ok_iff.mp driven
      obtain ⟨⟨later, last⟩, rest, isMiddle⟩ := bind_eq_ok_iff.mp others
      cases isMiddle
      refine bind_eq_ok_iff.mpr ⟨_, first, bind_eq_ok_iff.mpr ⟨_, inductionHypothesis rest, ?_⟩⟩
      simp [pure, Except.pure]

def Simulation.stepHistory (simulation : Simulation) : Nat → List (Nat × Event)
  | 0 => []
  | count + 1 =>
      match simulation.step with
      | .ok (events, next) => stamped simulation.now events ++ next.stepHistory count
      | .error _ => []

theorem Kernel.Maintained.stepHistory {holds : List (Nat × Event) → Kernel → Prop}
    (maintained : Maintained workload scheduler holds) (history : List (Nat × Event))
    (underway : simulation.Underway workload) (scheduled : simulation.kernel.scheduler = scheduler)
    (collected : simulation.kernel.machine.events = []) (held : holds history simulation.kernel)
    (driven : simulation.steps count = .ok (log, last)) :
    (simulation.stepHistory count).map (·.2) = log ∧
      holds (history ++ simulation.stepHistory count) last.kernel ∧ last.Underway workload := by
  induction count generalizing simulation history log with
  | zero =>
      cases driven
      exact ⟨rfl, by rwa [Simulation.stepHistory, List.append_nil], underway⟩
  | succ count inductionHypothesis =>
      obtain ⟨⟨events, next⟩, steps, others⟩ := bind_eq_ok_iff.mp driven
      obtain ⟨⟨later, final⟩, driven, isLast⟩ := bind_eq_ok_iff.mp others
      cases isLast
      rw [Simulation.stepHistory, steps]
      cases finished : simulation.allFinished with
      | true =>
          rw [Simulation.step, if_pos finished] at steps
          cases steps
          exact inductionHypothesis history underway scheduled collected held driven
      | false =>
          obtain ⟨_, _, _, _, _, _, _, _, _, _, continues⟩ := underway.exists_stages finished steps
          obtain ⟨stepped, drained, sameScheduler⟩ :=
            maintained.step underway scheduled collected finished held steps
          obtain ⟨isLater, holdsAll, order⟩ :=
            inductionHypothesis _ continues sameScheduler drained stepped driven
          refine ⟨?_, ?_, order⟩
          · rw [List.map_append, isLater, stamped, List.map_map, Function.comp_def, List.map_id']
          · rwa [← List.append_assoc]

theorem Kernel.Maintained.steps {holds : List (Nat × Event) → Kernel → Prop}
    (maintained : Maintained workload scheduler holds) (history : List (Nat × Event))
    (underway : simulation.Underway workload) (scheduled : simulation.kernel.scheduler = scheduler)
    (collected : simulation.kernel.machine.events = []) (held : holds history simulation.kernel)
    (driven : simulation.steps count = .ok (log, last)) :
    ∃ news, news.map (·.2) = log ∧ holds (history ++ news) last.kernel ∧
      last.Underway workload :=
  ⟨_, maintained.stepHistory history underway scheduled collected held driven⟩

namespace Machine

/-- Some job has nothing to do and yet has not finished. -/
def Stuck (machine : Machine) : Prop :=
  ∃ id job, machine.job? id = some job ∧ job.remaining = 0 ∧ job.phase ≠ .finished

namespace Stuck

variable {machine next : Machine} {id : Nat} {old : Job}

theorem put (stuck : machine.Stuck) (present : machine.job? id = some old) (job : Job)
    (moves : old.remaining = 0 →
      job.remaining = 0 ∧ (job.phase = .finished → old.phase = .finished)) :
    (machine.put id job).Stuck := by
  obtain ⟨other, found, isFound, idle, unfinished⟩ := stuck
  by_cases same : other = id
  · subst same
    cases present.symm.trans isFound
    obtain ⟨stays, finishes⟩ := moves idle
    exact ⟨other, job, job?_put_self present job, stays, fun done => unfinished (finishes done)⟩
  · exact ⟨other, found, (job?_put present job other).trans (if_neg same ▸ isFound), idle,
      unfinished⟩

theorem released (stuck : machine.Stuck) (present : machine.job? id = some old) (event : Event) :
    (machine.released id old event).Stuck :=
  stuck.put present { old with phase := .ready } fun idle => ⟨idle, fun done => nomatch done⟩

theorem start {fixesWaiting : Bool} {now : Nat} {job started : Job} (stuck : machine.Stuck)
    (present : machine.job? id = some old) (same : job.remaining = old.remaining)
    (booked : startBooks fixesWaiting now job = .ok started) : (machine.put id started).Stuck := by
  obtain ⟨_, _, _, rfl⟩ := startBooks_ok booked
  exact stuck.put present _ fun idle => ⟨same.trans idle, fun done => nomatch done⟩

theorem requeueExpired (stuck : machine.Stuck)
    (requeues : scheduler.requeueExpired machine = .ok next) : next.Stuck := by
  rcases Scheduler.requeueExpired_ok requeues with ⟨_, rfl⟩ | ⟨id, _, _, _, _, present, _, _, rfl⟩
  · exact stuck
  · exact stuck.released present (.sliceExpired id)

theorem dispatch (stuck : machine.Stuck) (dispatches : scheduler.dispatch machine = .ok next) :
    next.Stuck := by
  rcases Scheduler.dispatch_ok dispatches with ⟨_, fills⟩ | ⟨id, current, rfl | contests⟩
  · rcases Scheduler.fillCpu_ok fills with ⟨_, rfl⟩ | ⟨_, _, _, _, _, present, booked, rfl⟩
    · exact stuck
    · exact stuck.start present (by cases scheduler <;> rfl) booked
  · exact stuck
  · rcases Scheduler.contest_ok current contests with
      ⟨_, rfl⟩ | ⟨job, candidateId, _, _, present, _, rest⟩
    · exact stuck
    · rcases rest with ⟨_, rfl⟩ | ⟨_, _, _, _, _, _, _, isWaiting, booked, rfl⟩
      · exact stuck
      · have left := stuck.released present (.preempt id candidateId)
        exact start left isWaiting rfl booked

theorem work {work : Work} (stuck : machine.Stuck)
    (works : machine.recordTrace.runCurrent = .ok (work, next)) : next.Stuck := by
  rcases work_ok works with
    ⟨_, _, rfl⟩ | ⟨_, job, _, present, ⟨_, hasWork, _, rfl⟩ | ⟨lastTick, _, _, _, rfl⟩⟩
  · exact stuck
  · exact stuck.put present _ fun idle => by omega
  · exact stuck.put present _ fun idle => by omega

theorem ageAll {step : Nat} {aging : List Nat} (stuck : machine.Stuck)
    (ages : aging.foldlM (scheduler.age step) machine = .ok next) : next.Stuck := by
  induction aging generalizing machine with
  | nil =>
      cases ages
      exact stuck
  | cons id rest inductionHypothesis =>
      rw [List.foldlM_cons, bind_eq_ok_iff] at ages
      obtain ⟨aged, first, others⟩ := ages
      obtain ⟨job, present, rfl⟩ := Scheduler.age_ok first
      refine inductionHypothesis ?_ others
      exact stuck.put present (job.aged step) fun idle => ⟨idle, fun done => done⟩

theorem endSlice (stuck : machine.Stuck) (ends : scheduler.endSlice machine = .ok next) :
    next.Stuck := by
  cases scheduler with
  | agingRoundRobin quantum step =>
      simp only [Scheduler.endSlice] at ends
      split at ends
      next =>
        cases ends
        exact stuck
      next => exact stuck.ageAll ends
  | _ =>
      cases ends
      exact stuck

theorem closeTick {work : Work} (stuck : machine.Stuck)
    (closes : scheduler.closeTick work machine = .ok next) : next.Stuck := by
  rcases Scheduler.closeTick_ok closes with ⟨rfl, _⟩ | ⟨_, ends⟩ | ⟨_, _, _, _, _, ends⟩
  · exact stuck
  · exact stuck.endSlice ends
  · have marked : machine.markExpired.Stuck := stuck
    exact marked.endSlice ends

theorem not_audited (stuck : machine.Stuck) : machine.audit ≠ .ok () := by
  obtain ⟨id, job, present, idle, unfinished⟩ := stuck
  intro audited
  obtain ⟨_, _, rest⟩ := bind_eq_ok_iff.mp audited
  obtain ⟨_, _, rest⟩ := bind_eq_ok_iff.mp rest
  obtain ⟨_, _, books⟩ := bind_eq_ok_iff.mp rest
  have checked := forM_eq_ok_iff.mp books job (mem_jobs_of_job? present)
  rw [Job.audit, if_neg unfinished, ensure_eq_ok_iff] at checked
  omega

end Stuck

end Machine

namespace Simulation

theorem not_stuck_of_tick {kernel next : Kernel} {events : List Event}
    (ticks : kernel.tick = .ok (events, next)) : ¬kernel.machine.Stuck := by
  intro stuck
  simp only [Kernel.tick, bind_eq_ok_iff] at ticks
  obtain ⟨_, requeues, _, dispatches, _, works, closed, closes, _, _, _, audited, _⟩ := ticks
  have closedStuck := (((stuck.requeueExpired requeues).dispatch dispatches).work works).closeTick
    closes
  have advanced : (closed.advance 1).Stuck := closedStuck
  exact advanced.not_audited audited

theorem stuck_of_wakeArrived {kernel next : Kernel} {pending rest : List Nat}
    (stuck : kernel.machine.Stuck) (wakes : wakeArrived kernel pending = .ok (next, rest)) :
    next.machine.Stuck := by
  have keeps (early late : Kernel) (id : Nat) (wakesOne : early.wake id = .ok late)
      (stuck : early.machine.Stuck) : late.machine.Stuck := by
    obtain ⟨woken, _, present, _, _, _, rfl⟩ := Kernel.wake_ok wakesOne
    exact stuck.put present { woken with phase := .ready } fun idle =>
      ⟨idle, fun done => nomatch done⟩
  exact wakeArrived_keeps keeps wakes stuck

theorem Passes.exists_steps (passes : Passes first simulation) :
    ∃ count log, first.steps count = .ok (log, simulation) := by
  induction passes with
  | first => exact ⟨0, [], rfl⟩
  | step _ _ _ stepped inductionHypothesis =>
      obtain ⟨count, log, driven⟩ := inductionHypothesis
      exact ⟨count + 1, _, steps_succ driven stepped⟩

/-- A run that completes is a number of steps. -/
theorem exists_steps_of_simulate {schedule : Schedule}
    (ran : simulate workload config policy = .ok schedule) :
    ∃ first count log last, ofWorkload workload config policy = .ok first ∧
      first.steps count = .ok (log, last) ∧ last.allFinished = true ∧
      last.schedule = .ok schedule := by
  cases valid : validate workload with
  | error refusal => simp [simulate_of_invalid valid] at ran
  | ok =>
      cases created : ofWorkload workload config policy with
      | error refusal => simp [simulate_of_refused valid created] at ran
      | ok first =>
          obtain ⟨last, passes, _, _, runs, _⟩ := simulate_ends created valid
          obtain ⟨count, log, driven⟩ := passes.exists_steps
          obtain ⟨finished, schedules⟩ := schedule_of_outcome (runs.symm.trans ran)
          exact ⟨first, count, log, last, rfl, driven, finished, schedules⟩

theorem positive_of_steps (created : ofWorkload workload config policy = .ok first)
    (driven : first.steps count = .ok (log, last)) (finished : last.allFinished = true) :
    ∀ spec ∈ workload, 0 < spec.service := by
  obtain ⟨scheduler, _, isInitial⟩ := exists_initial created
  intro spec member
  by_contra idle
  have noService : spec.service.toNat = 0 := by
    simpa using congrArg UInt64.toNat (UInt64.le_zero_iff.mp (UInt64.not_lt.mp idle))
  have unfinished : ¬first.allFinished = true := by
    have someJob := List.length_pos_of_mem member
    have count : first.kernel.machine.jobs.length = workload.length := by
      simp [isInitial, Kernel.initial, Machine.ofWorkload]
    have noneYet : first.kernel.machine.finished = 0 := by
      rw [isInitial]
      rfl
    simp only [Simulation.allFinished, Machine.allFinished, beq_iff_eq]
    omega
  have stuck : first.kernel.machine.Stuck := by
    obtain ⟨index, listed⟩ := List.mem_iff_getElem?.mp member
    have unstarted : (Job.ofSpec (index + 1) spec).phase ≠ .finished := by simp [Job.ofSpec]
    refine ⟨index + 1, .ofSpec (index + 1) spec, ?_, noService, unstarted⟩
    rw [isInitial]
    exact (Job.getElem?_ofWorkload workload index).trans (congrArg (Option.map _) listed)
  cases count with
  | zero =>
      cases driven
      exact unfinished finished
  | succ count =>
      obtain ⟨⟨events, next⟩, steps, _⟩ := bind_eq_ok_iff.mp driven
      rw [Simulation.step, if_neg unfinished] at steps
      obtain ⟨⟨fed, pending⟩, wakes, rest⟩ := bind_eq_ok_iff.mp steps
      obtain ⟨⟨news, ticked⟩, ticks, _⟩ := bind_eq_ok_iff.mp rest
      exact not_stuck_of_tick ticks (stuck_of_wakeArrived stuck wakes)

end Simulation

end CpuScheduling
