import CpuScheduling.Proofs.Lineup.Overtaking
import CpuScheduling.Proofs.Simulation.Record
import CpuScheduling.Proofs.Simulation.UniformCriterion
import Mathlib.Data.Finset.Max

/-!
How often the CPU is taken away.  Whoever takes it has just arrived, so it does so once, and the
first one to arrive never does.  Every dispatch ends in a completion or a loss, so the number of
dispatches and of switches is bounded by the number of jobs.
-/

namespace CpuScheduling

namespace Event

def preemption? : Event → Option (Nat × Nat)
  | preempt id displacing => some (id, displacing)
  | _ => none

def isLoss : Event → Bool
  | preempt _ _ | sliceExpired _ => true
  | _ => false

end Event

def preemptions (log : List Event) : List (Nat × Nat) :=
  log.filterMap (·.preemption?)

/-- Those who took the CPU from another, one for each time. -/
def preemptors (log : List Event) : List Nat :=
  (preemptions log).map (·.2)

def lossCount (log : List Event) : Nat :=
  log.countP (·.isLoss)

section Log

variable {log news : List Event}

theorem mem_preemptions {id displacing : Nat} :
    (id, displacing) ∈ preemptions log ↔ .preempt id displacing ∈ log := by
  simp only [preemptions, List.mem_filterMap]
  constructor
  · rintro ⟨event, member, isPreemption⟩
    cases event with
    | preempt =>
        cases isPreemption
        exact member
    | _ => cases isPreemption
  · exact fun member => ⟨_, member, rfl⟩

theorem preemptions_append : preemptions (log ++ news) = preemptions log ++ preemptions news :=
  List.filterMap_append

theorem preemptors_append : preemptors (log ++ news) = preemptors log ++ preemptors news := by
  rw [preemptors, preemptions_append, List.map_append]
  rfl

theorem lossCount_eq (endless : ∀ id, .sliceExpired id ∉ log) :
    lossCount log = (preemptors log).length := by
  induction log with
  | nil => rfl
  | cons event rest inductionHypothesis =>
      have others := inductionHypothesis fun id member =>
        endless id (List.mem_cons_of_mem event member)
      rw [lossCount, preemptors, List.length_map] at others ⊢
      cases event with
      | preempt => simpa [Event.isLoss, preemptions, Event.preemption?] using others
      | sliceExpired id => exact absurd List.mem_cons_self (endless id)
      | _ => simpa [Event.isLoss, preemptions, Event.preemption?] using others

theorem Chained.switchCount_le (chained : Chained log) :
    switchCount log ≤ (dispatched log).length - 1 := by
  induction log using List.reverseRecOn with
  | nil => exact Nat.le_refl 0
  | append_singleton early event inductionHypothesis =>
      have before : Chained early := fun first other late split =>
        chained first other (late ++ [event]) (by rw [split]; simp)
      have names := chained early event [] (by simp)
      have bound := inductionHypothesis before
      rw [switchCount_concat]
      cases event with
      | dispatch id last switched =>
          have grows : (dispatched (early ++ [.dispatch id last switched])).length =
              (dispatched early).length + 1 := by
            simp [dispatched, Event.dispatched?]
          rw [grows]
          cases switched with
          | false => exact bound.trans (Nat.sub_le _ 1)
          | true =>
              obtain ⟨other, isLast, _⟩ := names.2.mp rfl
              have nonempty := List.length_pos_of_mem (List.mem_of_getLast? isLast)
              simp only [Event.isSwitch, ↓reduceIte]
              omega
      | _ => simpa [Event.isSwitch, Event.dispatched?, dispatched] using bound

end Log

structure Machine.Hands (news : List Event) (machine next : Machine) : Prop where
  events : next.events = machine.events ++ news
  tally : (dispatched news).length + machine.cpu.current.toList.length + machine.finished =
    lossCount news + next.cpu.current.toList.length + next.finished

structure Scheduler.Takes (scheduler : Scheduler) (machine : Machine) (displaced displacing : Nat) :
    Prop where
  current : machine.cpu.current = some displaced
  picked : machine.ready.peek = some displacing
  wins : ∃ job rival, machine.job? displaced = some job ∧ machine.job? displacing = some rival ∧
    scheduler.displaces rival job = true

/-- One job takes the CPU from another when it arrives. -/
def Newcomer (workload : List Spec) (time displaced displacing : Nat) : Prop :=
  ∃ job ∈ Job.ofWorkload workload, ∃ other ∈ Job.ofWorkload workload,
    job.id = displacing ∧ job.arrival = time ∧ other.id = displaced ∧ other.arrival < time

section Phases

variable {workload : List Spec} {scheduler : Scheduler} {kernel : Kernel}
  {machine next last requeued started worked closed : Machine} {work : Work}
  {news more : List Event}

namespace Machine.Hands

theorem refl (machine : Machine) : Hands [] machine machine :=
  ⟨(List.append_nil _).symm, by simp [dispatched, lossCount]⟩

theorem trans (hands : Hands news machine next) (later : Hands more next last) :
    Hands (news ++ more) machine last where
  events := by rw [later.events, hands.events, List.append_assoc]
  tally := by
    have first := hands.tally
    have second := later.tally
    simp only [dispatched, lossCount, List.filterMap_append, List.length_append, List.countP_append]
      at first second ⊢
    omega

end Machine.Hands

namespace Scheduler

theorem hands_of_requeueExpired (requeues : scheduler.requeueExpired machine = .ok next) :
    ∃ news, Machine.Hands news machine next ∧ preemptions news = [] := by
  rcases requeueExpired_ok requeues with ⟨_, rfl⟩ | ⟨id, _, _, current, _, _, _, _, rfl⟩
  · exact ⟨[], .refl _, rfl⟩
  · refine ⟨[.sliceExpired id], ⟨rfl, ?_⟩, rfl⟩
    rw [current]
    rfl

theorem hands_of_dispatch (dispatches : scheduler.dispatch machine = .ok next) :
    ∃ news, Machine.Hands news machine next ∧ (preemptions news = [] ∨
      ∃ id displacing, preemptions news = [(id, displacing)] ∧
        scheduler.Takes machine id displacing) := by
  rcases dispatch_ok dispatches with ⟨idle, fills⟩ | ⟨id, current, rfl | contests⟩
  · rcases fillCpu_ok fills with ⟨_, rfl⟩ | ⟨id, _, _, _, _, _, _, rfl⟩
    · exact ⟨[], .refl _, .inl rfl⟩
    · refine ⟨[.dispatch id machine.cpu.last (machine.switchesTo id)], ⟨rfl, ?_⟩, .inl rfl⟩
      rw [idle]
      rfl
  · exact ⟨[], .refl _, .inl rfl⟩
  · rcases contest_ok current contests with
      ⟨_, rfl⟩ | ⟨job, displacing, rival, picked, present, isRival, ⟨_, rfl⟩ | ⟨wins, _, _, _, _, _,
        _, _, _, rfl⟩⟩
    · exact ⟨[], .refl _, .inl rfl⟩
    · exact ⟨[], .refl _, .inl rfl⟩
    · refine ⟨[.preempt id displacing, .dispatch displacing machine.cpu.last
        (machine.switchesTo displacing)], ⟨List.append_assoc machine.events _ _, ?_⟩,
        .inr ⟨id, displacing, rfl, current, picked, job, rival, present, isRival, wins⟩⟩
      rw [current]
      rfl

end Scheduler

theorem Machine.hands_of_tick (works : machine.recordTrace.runCurrent = .ok (work, worked))
    (closes : scheduler.closeTick work worked = .ok closed) :
    ∃ news, Hands news machine closed ∧ preemptions news = [] := by
  obtain ⟨jobs, ready, expired, rfl⟩ := Scheduler.closeTick_same closes
  rcases work_ok works with
    ⟨_, _, rfl⟩ | ⟨id, _, current, _, ⟨_, _, _, rfl⟩ | ⟨_, _, _, _, rfl⟩⟩
  · exact ⟨[.cpuIdle 1], ⟨rfl, rfl⟩, rfl⟩
  · exact ⟨[], ⟨(List.append_nil _).symm, rfl⟩, rfl⟩
  · refine ⟨[.complete id (machine.now + 1)], ⟨rfl, ?_⟩, rfl⟩
    rw [current]
    change 1 + machine.finished = 0 + (machine.finished + 1)
    omega

/-- In a tick the CPU is taken away at most once, by the one in front. -/
theorem Kernel.Phases.hands (phases : Phases workload kernel requeued started work worked closed) :
    ∃ news, Machine.Hands news kernel.machine closed ∧ (preemptions news = [] ∨
      ∃ id displacing, preemptions news = [(id, displacing)] ∧
        kernel.scheduler.Takes requeued id displacing) := by
  obtain ⟨expired, requeues, noneThere⟩ := Scheduler.hands_of_requeueExpired phases.requeues
  obtain ⟨given, dispatches, taken⟩ := Scheduler.hands_of_dispatch phases.dispatches
  obtain ⟨ended, works, noneLater⟩ := Machine.hands_of_tick phases.works phases.closes
  refine ⟨_, (requeues.trans dispatches).trans works, ?_⟩
  rw [preemptions_append, preemptions_append, noneThere, noneLater, List.nil_append,
    List.append_nil]
  exact taken

/-- Without slices, whoever takes the CPU has come with this tick, and its holder came before. -/
theorem Kernel.Follows.newcomer {woken awaited : List Job} {displaced displacing : Nat}
    (follows : kernel.Follows workload kernel.scheduler)
    (conserving : kernel.Conserving workload woken awaited)
    (later : ∀ job ∈ awaited, kernel.machine.now < job.arrival)
    (phases : Phases workload kernel requeued started work worked closed)
    (small : demand (arrivals workload) < wordSize)
    (endless : ∀ used, kernel.scheduler.usesUp used = false)
    (takes : kernel.scheduler.Takes requeued displaced displacing) :
    Newcomer workload kernel.machine.now displaced displacing := by
  obtain ⟨lineup, isGathered, shows, picks, fits, servable⟩ :=
    follows.gathers conserving later phases small
  obtain ⟨job, rival, present, isRival, wins⟩ := takes.wins
  obtain ⟨tenure, isHolder, _, rfl⟩ := shows.exists_tenure takes.current present
  obtain ⟨front, isFront, rfl⟩ := Option.map_eq_some_iff.mp (picks.symm.trans takes.picked)
  have waits : front ∈ lineup.waiting := List.mem_of_head? isFront
  rw [shows.displaces_eq_overtakes phases.settled.toOrderly isHolder present waits isRival fits
    servable] at wins
  subst isGathered
  obtain ⟨comes, wasHolder⟩ := Lineup.newcomer_of_overtakes endless isHolder waits wins
  obtain ⟨newcomer, submitted, arrives, rfl⟩ := mem_tasksAt.mp comes
  have formerly := (Lineup.arrived_before kernel.scheduler (arrival_tasksAt workload)
    kernel.machine.now).holder tenure wasHolder
  obtain ⟨former, wasSubmitted, sameId, sameArrival, _⟩ :=
    (Lineup.Every.before (submitted_lasting workload kernel.scheduler)
      (submitted_tasksAt workload) kernel.machine.now).holder tenure wasHolder
  exact ⟨newcomer, submitted, former, wasSubmitted, rfl, arrives, sameId.symm,
    sameArrival ▸ formerly⟩

end Phases

structure OnArrival (workload : List Spec) (history : List (Nat × Event)) (now : Nat) : Prop where
  newcomer : ∀ time displaced displacing, (time, .preempt displaced displacing) ∈ history →
    time < now ∧ Newcomer workload time displaced displacing
  once : (preemptors (history.map (·.2))).Nodup

theorem mem_preemptors {history : List (Nat × Event)} {displacing : Nat} :
    displacing ∈ preemptors (history.map (·.2)) ↔
      ∃ time displaced, (time, .preempt displaced displacing) ∈ history := by
  constructor
  · intro listed
    obtain ⟨⟨displaced, _⟩, isPreemption, rfl⟩ := List.mem_map.mp listed
    obtain ⟨⟨time, _⟩, member, rfl⟩ := List.mem_map.mp (mem_preemptions.mp isPreemption)
    exact ⟨time, displaced, member⟩
  · rintro ⟨time, displaced, member⟩
    have told : .preempt displaced displacing ∈ history.map (·.2) :=
      List.mem_map.mpr ⟨_, member, rfl⟩
    exact List.mem_map.mpr ⟨_, mem_preemptions.mpr told, rfl⟩

namespace OnArrival

variable {workload : List Spec} {history added : List (Nat × Event)} {news : List Event}
  {now later : Nat}

theorem append (onArrival : OnArrival workload history now) (passes : now ≤ later)
    (comes : ∀ time displaced displacing, (time, .preempt displaced displacing) ∈ added →
      now ≤ time ∧ time < later ∧ Newcomer workload time displaced displacing)
    (once : (preemptors (added.map (·.2))).Nodup) :
    OnArrival workload (history ++ added) later where
  newcomer time displaced displacing member := by
    rcases List.mem_append.mp member with before | isNew
    · obtain ⟨past, came⟩ := onArrival.newcomer time displaced displacing before
      exact ⟨past.trans_le passes, came⟩
    · exact (comes time displaced displacing isNew).2
  once := by
    rw [List.map_append, preemptors_append]
    refine onArrival.once.append once fun displacing before isNew => ?_
    obtain ⟨early, _, wasTaken⟩ := mem_preemptors.mp before
    obtain ⟨late, _, isTaken⟩ := mem_preemptors.mp isNew
    obtain ⟨past, former, submitted, _, _, isFormer, cameEarly, _⟩ :=
      onArrival.newcomer _ _ _ wasTaken
    obtain ⟨notPast, _, latter, alsoSubmitted, _, _, isLatter, cameLate, _⟩ := comes _ _ _ isTaken
    have same := Job.eq_of_id submitted alsoSubmitted (isFormer.trans isLatter.symm)
    rw [same] at cameEarly
    omega

theorem quiet (onArrival : OnArrival workload history now) (passes : now ≤ later)
    (none : preemptions (added.map (·.2)) = []) : OnArrival workload (history ++ added) later := by
  have nobody : preemptors (added.map (·.2)) = [] := by rw [preemptors, none, List.map_nil]
  refine onArrival.append passes (fun time displaced displacing member => ?_) (nobody ▸ .nil)
  have listed := mem_preemptors.mpr ⟨time, displaced, member⟩
  simp [nobody] at listed

theorem tick (onArrival : OnArrival workload history now)
    (taken : preemptions news = [] ∨ ∃ displaced displacing,
      preemptions news = [(displaced, displacing)] ∧
        Newcomer workload now displaced displacing) :
    OnArrival workload (history ++ stamped now news) (now + 1) := by
  have isNews : (stamped now news).map (·.2) = news := by
    rw [stamped, List.map_map, Function.comp_def, List.map_id']
  rcases taken with none | ⟨displaced, displacing, one, comes⟩
  · exact onArrival.quiet (Nat.le_succ now) (by rw [isNews, none])
  · refine onArrival.append (Nat.le_succ now) ?_ (by rw [isNews, preemptors, one]; simp)
    intro time other rival member
    obtain ⟨event, isEvent, sameTime⟩ := List.mem_map.mp member
    cases sameTime
    have listed := mem_preemptions.mpr isEvent
    rw [one, List.mem_singleton] at listed
    cases listed
    exact ⟨Nat.le_refl now, Nat.lt_succ_self now, comes⟩

end OnArrival

namespace Kernel

variable {workload : List Spec} {scheduler : Scheduler}

theorem maintained_onArrival (endless : ∀ used, scheduler.usesUp used = false)
    (small : demand (arrivals workload) < wordSize) :
    Maintained workload scheduler fun history kernel =>
      kernel.Follows workload scheduler ∧ OnArrival workload history kernel.machine.now where
  wake := by
    rintro history kernel next woken job awaited conserving rfl come wakes ⟨follows, onArrival⟩
    refine ⟨follows.wake conserving come wakes, ?_⟩
    obtain ⟨_, wakesSame, _, woke⟩ := conserving.wake come
    cases wakes.symm.trans wakesSame
    exact onArrival.quiet (Nat.le_of_eq woke.now.symm) rfl
  tick := by
    rintro history kernel woken awaited requeued started work worked closed news conserving rfl
      later phases isNews nextOrder change ⟨follows, onArrival⟩
    refine ⟨follows.tick conserving later phases nextOrder change (endless 0) small, ?_⟩
    obtain ⟨happened, hands, taken⟩ := phases.hands
    cases List.append_cancel_left (hands.events.symm.trans isNews)
    rw [change.now]
    refine onArrival.tick (taken.imp_right ?_)
    rintro ⟨displaced, displacing, one, takes⟩
    exact ⟨displaced, displacing, one, follows.newcomer conserving later phases small endless takes⟩
  rest := by
    rintro history kernel woken awaited ticks time conserving _ atRest before ⟨follows, onArrival⟩
    exact ⟨follows.rest conserving atRest before, onArrival.quiet (Nat.le_add_right _ ticks) rfl⟩

/-- Every dispatch has ended in a completion or a loss, but for that of the current job. -/
theorem maintained_tallied (workload : List Spec) (scheduler : Scheduler) :
    Maintained workload scheduler fun history kernel =>
      (dispatched (history.map (·.2))).length = lossCount (history.map (·.2)) +
        kernel.machine.cpu.current.toList.length + kernel.machine.finished where
  wake := by
    intro history kernel next woken job awaited _ _ _ wakes tallied
    obtain ⟨_, _, _, _, _, _, rfl⟩ := wake_ok wakes
    rw [List.map_append, dispatched, lossCount, List.filterMap_append, List.countP_append]
    exact (congrArg List.length (List.append_nil _)).trans tallied
  tick := by
    intro history kernel woken awaited requeued started work worked closed news _ _ _ phases isNews
      _ _ tallied
    obtain ⟨happened, hands, _⟩ := phases.hands
    cases List.append_cancel_left (hands.events.symm.trans isNews)
    have tick := hands.tally
    rw [List.map_append, stamped, List.map_map, Function.comp_def, List.map_id']
    simp only [dispatched, lossCount, List.filterMap_append, List.length_append,
      List.countP_append] at tallied tick ⊢
    change _ = _ + closed.cpu.current.toList.length + closed.finished
    omega
  rest := by
    intro history kernel woken awaited ticks _ _ _ _ _ tallied
    rw [List.map_append, dispatched, lossCount, List.filterMap_append, List.countP_append]
    exact (congrArg List.length (List.append_nil _)).trans tallied

end Kernel

variable {workload : List Spec} {config : Config} {policy : Policy} {schedule : Schedule}

/-- The first job to arrive takes the CPU from nobody, and the others at most once. -/
theorem OnArrival.length_preemptors_le {history : List (Nat × Event)} {now : Nat}
    (onArrival : OnArrival workload history now) (nonempty : workload ≠ []) :
    (preemptors (history.map (·.2))).length + 1 ≤ workload.length := by
  have someJob : (Job.ofWorkload workload).toFinset.Nonempty := by
    rw [List.toFinset_nonempty_iff, ← List.length_pos_iff, Job.length_ofWorkload]
    exact List.length_pos_iff.mpr nonempty
  obtain ⟨first, isFirst, earliest⟩ := Finset.exists_min_image _ Job.arrival someJob
  simp only [List.mem_toFinset] at isFirst earliest
  have firstId : first.id ∈ (Job.ofWorkload workload).map (·.id) := List.mem_map_of_mem isFirst
  have others : preemptors (history.map (·.2)) ⊆
      ((Job.ofWorkload workload).map (·.id)).erase first.id := by
    intro displacing taken
    obtain ⟨time, displaced, member⟩ := mem_preemptors.mp taken
    obtain ⟨_, job, submitted, other, alsoSubmitted, rfl, rfl, _, earlier⟩ :=
      onArrival.newcomer time displaced displacing member
    refine (List.mem_erase_of_ne fun same => ?_).mpr (List.mem_map_of_mem submitted)
    have notEarlier := earliest other alsoSubmitted
    rw [Job.eq_of_id submitted isFirst same] at earlier
    omega
  have bound := (onArrival.once.subperm others).length_le
  have count := List.length_pos_of_mem firstId
  rw [List.length_erase_of_mem firstId] at bound
  rw [List.length_map, Job.length_ofWorkload] at bound count
  omega

/-- The CPU is taken by jobs that arrive just then, and so seldom. -/
structure PreemptsOnArrival (history : List (Nat × Event)) (schedule : Schedule) : Prop where
  arrives : ∀ time displaced displacing, (time, .preempt displaced displacing) ∈ history →
    ∃ job ∈ schedule.jobs, job.id = displacing ∧ job.arrival = time
  once : (preemptors (history.map (·.2))).Nodup
  preemptions : (preemptors (history.map (·.2))).length + 1 ≤ schedule.jobs.length
  dispatches : (dispatched (history.map (·.2))).length + 1 ≤ 2 * schedule.jobs.length
  switches : schedule.metrics.contextSwitches + 2 ≤ 2 * schedule.jobs.length

section Runs

variable (ran : simulate workload config policy = .ok schedule)

include ran

theorem length_dispatched_of_simulate :
    (dispatched ((Simulation.history workload config policy).map (·.2))).length =
      lossCount ((Simulation.history workload config policy).map (·.2)) + workload.length := by
  obtain ⟨scheduler, decides⟩ := exists_scheduler_of_simulate ran
  obtain ⟨last, _, conserving, _, finished, _, tallied⟩ :=
    (Kernel.maintained_tallied workload scheduler).simulate decides rfl ran
  have settled := conserving.orderly.settled
  have allDone : last.machine.finished = workload.length := by
    have table := congrArg List.length settled.table
    rw [List.length_map, Job.length_ofWorkload] at table
    simpa [Machine.allFinished, table] using finished
  rwa [settled.current_of_allFinished finished, Option.toList_none, List.length_nil, allDone,
    Nat.add_zero] at tallied

theorem chained_of_simulate : Chained ((Simulation.history workload config policy).map (·.2)) ∧
    schedule.metrics.contextSwitches =
      switchCount ((Simulation.history workload config policy).map (·.2)) ∧
    ∀ event ∈ (Simulation.history workload config policy).map (·.2), event.OccursUnder policy := by
  obtain ⟨scheduler, decides⟩ := exists_scheduler_of_simulate ran
  obtain ⟨_, _, _, _, _, reports, told, _⟩ :=
    (Kernel.maintained_told workload scheduler).simulate decides
      ⟨Kernel.told_initial workload scheduler, .nil⟩ ran
  exact ⟨told.chained, reports.switches.trans told.switches,
    Scheduler.policy_of_ofPolicy decides ▸ told.policies⟩

end Runs

/-- Under shortest remaining time first and under priority with preemption, whoever takes the CPU
from another does so in the tick with which it arrives. -/
theorem simulate_preempts_on_arrival
    (preemptive : policy = .srtf ∨ policy = .preemptivePriority)
    (ran : simulate workload config policy = .ok schedule) :
    PreemptsOnArrival (Simulation.history workload config policy) schedule := by
  obtain ⟨scheduler, decides⟩ := exists_scheduler_of_simulate ran
  have endless : ∀ used, scheduler.usesUp used = false := by
    rcases preemptive with rfl | rfl
    all_goals
      cases decides
      exact fun _ => rfl
  obtain ⟨_, _, _, _, _, _, _, onArrival⟩ :=
    (Kernel.maintained_onArrival endless (demand_lt_of_simulate ran)).simulate decides
      ⟨Kernel.initial_follows workload scheduler, by simp, .nil⟩ ran
  have few := onArrival.length_preemptors_le
    (Simulation.validate_eq_ok_iff.mp (valid_of_simulate ran)).1
  obtain ⟨chained, switches, policies⟩ := chained_of_simulate ran
  have noSlices : ∀ id, .sliceExpired id ∉
      (Simulation.history workload config policy).map (·.2) := by
    intro id member
    have occurs := policies _ member
    rcases preemptive with rfl | rfl <;> simp [Event.OccursUnder] at occurs
  have losses := lossCount_eq noSlices
  have dispatches := length_dispatched_of_simulate ran
  have fewSwitches := chained.switchCount_le
  have jobs := jobs_of_simulate ran
  have count : schedule.jobs.length = workload.length := by
    rw [jobs, List.length_map, Job.length_ofWorkload]
  refine ⟨fun time displaced displacing member => ?_, onArrival.once, by omega, by omega, by omega⟩
  obtain ⟨_, job, submitted, _, _, isJob, comes, _⟩ :=
    onArrival.newcomer time displaced displacing member
  refine ⟨job.closed (heldTicks schedule.trace job.id), ?_, isJob, comes⟩
  rw [jobs]
  exact List.mem_map_of_mem submitted

/-- Each of three jobs but the first takes the CPU from the one before it, so that no bound can be
any lower. -/
theorem simulate_preempts_on_arrival_in_turn :
    ∃ schedule, simulate [⟨0, 5, 0⟩, ⟨1, 3, 0⟩, ⟨2, 1, 0⟩] {} .srtf = .ok schedule ∧
      preemptions ((Simulation.history [⟨0, 5, 0⟩, ⟨1, 3, 0⟩, ⟨2, 1, 0⟩] {} .srtf).map (·.2)) =
        [(1, 2), (2, 3)] ∧
      (dispatched ((Simulation.history [⟨0, 5, 0⟩, ⟨1, 3, 0⟩, ⟨2, 1, 0⟩] {} .srtf).map
        (·.2))).length = 5 ∧
      schedule.metrics.contextSwitches = 4 ∧
      PreemptsOnArrival (Simulation.history [⟨0, 5, 0⟩, ⟨1, 3, 0⟩, ⟨2, 1, 0⟩] {} .srtf)
        schedule := by
  have told : (preemptions ((Simulation.history [⟨0, 5, 0⟩, ⟨1, 3, 0⟩, ⟨2, 1, 0⟩] {}
      .srtf).map (·.2)),
      (dispatched ((Simulation.history [⟨0, 5, 0⟩, ⟨1, 3, 0⟩, ⟨2, 1, 0⟩] {} .srtf).map
        (·.2))).length) = ([(1, 2), (2, 3)], 5) := by
    decide +kernel
  have reported : (simulate [⟨0, 5, 0⟩, ⟨1, 3, 0⟩, ⟨2, 1, 0⟩] {} .srtf).toOption.map
      (·.metrics.contextSwitches) = some 4 := by
    decide +kernel
  obtain ⟨schedule, isSchedule, switches⟩ := Option.map_eq_some_iff.mp reported
  have ran := toOption_eq_some_iff.mp isSchedule
  obtain ⟨taken, dispatches⟩ := Prod.mk.inj told
  exact ⟨schedule, ran, taken, dispatches, switches, simulate_preempts_on_arrival (.inl rfl) ran⟩

end CpuScheduling
