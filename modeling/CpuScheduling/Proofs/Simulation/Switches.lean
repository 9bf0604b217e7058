import CpuScheduling.Proofs.Simulation.Steps

/-!
Switches are what the trace shows of them.  The count goes by who had the CPU last,
which neither a completion nor an expired slice nor an idle gap clears, so it counts
the neighbours that differ in the list of those who have had the CPU.
-/

namespace CpuScheduling

/-- The neighbours in a list that differ. -/
def changes : List Nat → Nat
  | first :: second :: rest => (if first = second then 0 else 1) + changes (second :: rest)
  | _ => 0

def occupants (record : Array TraceEntry) : List Nat :=
  record.toList.filterMap (·.occupant)

theorem occupants_eq (schedule : Schedule) :
    occupants schedule.trace = schedule.timeline.filterMap id := by
  simp [occupants, Schedule.timeline, List.filterMap_map]

theorem changes_concat (ids : List Nat) (id : Nat) :
    changes (ids ++ [id]) =
      changes ids + if ids.getLast?.isSome && ids.getLast? != some id then 1 else 0 := by
  induction ids with
  | nil => rfl
  | cons first rest inductionHypothesis =>
      cases rest with
      | nil => by_cases same : first = id <;> simp [changes, same]
      | cons second others =>
          rw [List.getLast?_cons_cons, List.cons_append, List.cons_append, changes,
            ← List.cons_append, inductionHypothesis, changes, Nat.add_assoc]

theorem changes_concat_self {ids : List Nat} {id : Nat} (isLast : ids.getLast? = some id) :
    changes (ids ++ [id]) = changes ids := by
  simp [changes_concat, isLast]

/-- The occupant of a tick is another one than the last who has had the CPU. -/
def ChangesHands (record : Array TraceEntry) (occupant : Option Nat) : Prop :=
  ∃ former id, (occupants record).getLast? = some former ∧ occupant = some id ∧ former ≠ id

section Occupant

variable {record : Array TraceEntry} {occupant : Option Nat}

theorem changes_of_changesHands (handed : ChangesHands record occupant) :
    changes (occupants record ++ occupant.toList) = changes (occupants record) + 1 := by
  obtain ⟨former, id, isLast, rfl, different⟩ := handed
  rw [Option.toList_some, changes_concat, isLast]
  simp [different]

theorem changes_of_not_changesHands (kept : ¬ChangesHands record occupant) :
    changes (occupants record ++ occupant.toList) = changes (occupants record) := by
  cases occupant with
  | none => simp
  | some id =>
      cases isLast : (occupants record).getLast? with
      | none => simp [List.getLast?_eq_none_iff.mp isLast, changes]
      | some former =>
          have same : former = id := by
            by_contra different
            exact kept ⟨former, id, isLast, rfl, different⟩
          rw [Option.toList_some, changes_concat_self (same ▸ isLast)]

end Occupant

theorem changes_replicate_append (count id : Nat) (rest : List Nat) :
    changes (List.replicate count id ++ id :: rest) = changes (id :: rest) := by
  induction count with
  | zero => rfl
  | succ count inductionHypothesis =>
      cases count with
      | zero => simp [changes]
      | succ count =>
          rw [List.replicate_succ, List.cons_append, List.replicate_succ, List.cons_append, changes,
            ← List.cons_append, ← List.replicate_succ, inductionHypothesis]
          simp

theorem changes_flatMap_replicate {count : Nat} (positive : 0 < count) (ids : List Nat) :
    changes (ids.flatMap (List.replicate count)) = changes ids := by
  obtain ⟨fewer, rfl⟩ := Nat.exists_eq_succ_of_ne_zero (Nat.ne_of_gt positive)
  have onceMore (id : Nat) (rest : List Nat) :
      (id :: rest).flatMap (List.replicate fewer.succ) =
        List.replicate fewer id ++ id :: rest.flatMap (List.replicate fewer.succ) := by
    rw [List.flatMap_cons, List.replicate_succ', List.append_assoc, List.singleton_append]
  induction ids with
  | nil => rfl
  | cons first rest inductionHypothesis =>
      rw [onceMore, changes_replicate_append]
      cases rest with
      | nil => rfl
      | cons second others =>
          rw [List.flatMap_cons, List.replicate_succ, List.cons_append] at inductionHypothesis ⊢
          rw [changes, inductionHypothesis, changes]

theorem occupants_push (record : Array TraceEntry) (entry : TraceEntry) :
    occupants (record.push entry) = occupants record ++ entry.occupant.toList := by
  cases occupant : entry.occupant <;> simp [occupants, occupant]

theorem occupants_append_idleTrace (record : Array TraceEntry) (first ticks : Nat) :
    occupants (record ++ Machine.idleTrace first ticks) = occupants record := by
  have nobody : (Machine.idleTrace first ticks).filterMap (·.occupant) = [] := by
    apply List.filterMap_eq_nil_iff.mpr
    intro entry member
    exact occupant_of_mem_idleTrace member
  simp [occupants, nobody]

namespace Machine

variable {machine next : Machine} {id : Nat} {ids : List Nat}

structure Counted (ids : List Nat) (machine : Machine) : Prop where
  last : machine.cpu.last = ids.getLast?
  switches : machine.switches = changes ids
  current : ∀ id, machine.cpu.current = some id → ids.getLast? = some id

theorem Counted.of_same (counted : machine.Counted ids) (cpu : next.cpu.last = machine.cpu.last)
    (switches : next.switches = machine.switches)
    (current : next.cpu.current = machine.cpu.current ∨ next.cpu.current = none) :
    next.Counted ids where
  last := cpu.trans counted.last
  switches := switches.trans counted.switches
  current id isCurrent := by
    rcases current with same | nobody
    · exact counted.current id (same ▸ isCurrent)
    · simp [nobody] at isCurrent

theorem Counted.given (counted : machine.Counted ids) (started : Job) :
    (machine.given id started).Counted (ids ++ [id]) where
  last := by simp [Machine.given, emit]
  switches := by
    rw [changes_concat, ← counted.last, ← counted.switches]
    rfl
  current other isCurrent := by
    cases isCurrent
    simp

theorem Counted.goOn (counted : machine.Counted ids) (current : machine.cpu.current = some id) :
    machine.Counted (ids ++ [id]) := by
  have isLast := counted.current id current
  constructor
  · simp [counted.last, isLast]
  · rw [counted.switches, changes_concat_self isLast]
  · intro other isCurrent
    cases current.symm.trans isCurrent
    simp

end Machine

namespace Scheduler

variable {machine next : Machine} {id : Nat} {ids : List Nat} {scheduler : Scheduler}

theorem counted_of_requeueExpired (counted : machine.Counted ids)
    (requeues : scheduler.requeueExpired machine = .ok next) : next.Counted ids := by
  rcases requeueExpired_ok requeues with ⟨_, rfl⟩ | ⟨id, job, ready, _, _, _, _, _, rfl⟩
  · exact counted
  · exact counted.of_same rfl rfl (.inr rfl)

theorem counted_of_fillCpu (counted : machine.Counted ids) (idle : machine.cpu.current = none)
    (fills : scheduler.fillCpu machine = .ok next) :
    next.Counted (ids ++ next.cpu.current.toList) := by
  rcases fillCpu_ok fills with ⟨_, rfl⟩ | ⟨id, _, started, _, _, _, _, rfl⟩
  · simpa [idle] using counted
  · have popped : machine.pop.2.Counted ids := counted.of_same rfl rfl (.inl rfl)
    exact popped.given started

theorem counted_of_contest (counted : machine.Counted ids) (current : machine.cpu.current = some id)
    (contests : scheduler.contest machine id = .ok next) :
    next.Counted (ids ++ next.cpu.current.toList) := by
  have stays : machine.Counted (ids ++ machine.cpu.current.toList) := by
    rw [current]
    exact counted.goOn current
  rcases contest_ok current contests with ⟨_, rfl⟩ | ⟨job, candidateId, _, _, _, _, rest⟩
  · exact stays
  · rcases rest with ⟨_, rfl⟩ | ⟨_, ready, started, _, _, _, _, _, _, rfl⟩
    · exact stays
    · have waits : Machine.Counted ids
          { machine.pop.2.released id job (.preempt id candidateId) with ready := ready } :=
        counted.of_same rfl rfl (.inr rfl)
      exact waits.given started

theorem counted_of_dispatch (counted : machine.Counted ids)
    (dispatches : scheduler.dispatch machine = .ok next) :
    next.Counted (ids ++ next.cpu.current.toList) := by
  rcases dispatch_ok dispatches with ⟨idle, fills⟩ | ⟨id, current, rfl | contests⟩
  · exact counted_of_fillCpu counted idle fills
  · rw [current]
    exact counted.goOn current
  · exact counted_of_contest counted current contests

end Scheduler

namespace Kernel

variable {workload : List Spec} {kernel : Kernel}

/-- A tick counts the switch to its occupant, if it is one. -/
theorem Phases.counted {requeued started worked closed : Machine} {work : Work}
    (phases : Phases workload kernel requeued started work worked closed)
    (counted : kernel.machine.Counted (occupants kernel.machine.trace)) :
    (kernel.afterTick closed).machine.Counted
      (occupants (kernel.machine.trace.push ⟨kernel.machine.now, started.cpu.current⟩)) := by
  have starts := Scheduler.counted_of_dispatch
    (Scheduler.counted_of_requeueExpired counted phases.requeues) phases.dispatches
  have works : worked.Counted (occupants kernel.machine.trace ++ started.cpu.current.toList) := by
    rcases Machine.work_ok phases.works with
      ⟨_, _, rfl⟩ | ⟨id, job, _, _, ⟨_, _, _, rfl⟩ | ⟨_, _, completed, _, rfl⟩⟩
    · exact starts.of_same rfl rfl (.inl rfl)
    · exact starts.of_same rfl rfl (.inl rfl)
    · exact starts.of_same rfl rfl (.inr rfl)
  obtain ⟨jobs, ready, expired, rfl⟩ := Scheduler.closeTick_same phases.closes
  rw [occupants_push]
  exact works.of_same rfl rfl (.inl rfl)

theorem maintained_counted (workload : List Spec) (scheduler : Scheduler) :
    Maintained workload scheduler fun _ kernel =>
      kernel.machine.Counted (occupants kernel.machine.trace) where
  wake := by
    intro _ kernel next woken job awaited _ _ _ wakes counted
    obtain ⟨_, _, _, _, _, _, rfl⟩ := wake_ok wakes
    exact counted.of_same rfl rfl (.inl rfl)
  tick := by
    intro _ kernel woken awaited requeued started work worked closed news _ _ _ phases _ _ change
      counted
    rw [change.record]
    exact phases.counted counted
  rest := by
    intro _ kernel woken awaited ticks _ _ _ _ _ counted
    rw [Kernel.rested, Machine.rested, occupants_append_idleTrace]
    exact counted.of_same rfl rfl (.inl rfl)

end Kernel

variable {workload : List Spec} {config : Config} {policy : Policy} {schedule : Schedule}

theorem contextSwitches_of_simulate (ran : simulate workload config policy = .ok schedule) :
    schedule.metrics.contextSwitches = changes (occupants schedule.trace) := by
  obtain ⟨scheduler, decides⟩ := exists_scheduler_of_simulate ran
  obtain ⟨last, _, _, _, _, reports, counted⟩ :=
    (Kernel.maintained_counted workload scheduler).simulate decides
      ⟨rfl, rfl, by simp [Kernel.initial, Machine.ofWorkload]⟩ ran
  rw [reports.switches, reports.record, counted.switches]

namespace Simulation

variable {simulation first next last : Simulation} {events log : List Event} {count : Nat}

theorem trace_of_wakeArrived {kernel next : Kernel} {pending rest : List Nat}
    (wakes : wakeArrived kernel pending = .ok (next, rest)) :
    next.machine.trace = kernel.machine.trace := by
  have keeps (early late : Kernel) (id : Nat) (wakesOne : early.wake id = .ok late)
      (same : early.machine.trace = kernel.machine.trace) :
      late.machine.trace = kernel.machine.trace := by
    obtain ⟨_, _, _, _, _, _, rfl⟩ := Kernel.wake_ok wakesOne
    exact same
  exact wakeArrived_keeps keeps wakes rfl

/-- A step lists the occupant of its one tick, if it has any; an idle wait behind it lists nobody. -/
theorem Underway.occupants_step (underway : simulation.Underway workload)
    (steps : simulation.step = .ok (events, next)) :
    occupants next.kernel.machine.trace =
      occupants simulation.kernel.machine.trace ++
        (occupantAt next.kernel.machine.trace simulation.now).toList := by
  obtain ⟨_, _, conserving, _⟩ := underway.conserving
  have elapsed : simulation.kernel.machine.trace.size = simulation.now :=
    conserving.orderly.settled.elapsed
  cases finished : simulation.allFinished with
  | true =>
      rw [step, if_pos finished] at steps
      cases steps
      rw [occupantAt_of_size_le elapsed.le]
      simp
  | false =>
      obtain ⟨_, _, fed, ticked, _, _, _, stages, rfl, rfl, _⟩ :=
        underway.exists_stages finished steps
      obtain ⟨_, started, _, _, _, _, _, _, _, change⟩ :=
        stages.fedOrder.orderly.tick_ok stages.ticks
      have record := change.record
      rw [trace_of_wakeArrived stages.feeds, stages.sameNow, ← elapsed] at record
      have held : occupantAt ticked.machine.trace simulation.now = started.cpu.current := by
        rw [record, occupantAt_push, if_pos elapsed.symm]
      rcases skipIdle_ok (Kernel.tick_collected stages.ticks) stages.waits with
        ⟨_, rfl⟩ | ⟨_, _, _, _, _, _, _, _, _, _, rfl⟩
      · rw [held, record, occupants_push]
      · rw [Kernel.rested, Machine.rested, occupantAt_append_idleTrace, occupants_append_idleTrace,
          held, record, occupants_push]

/-- However far a run is driven, under whatever policy, it has counted as switches just the changes
in the list of those who have had the CPU; and a further step adds one where the CPU changes hands
in its tick, and nothing otherwise. -/
theorem steps_counted (created : ofWorkload workload config policy = .ok first)
    (positive : ∀ spec ∈ workload, 0 < spec.service)
    (driven : first.steps count = .ok (log, last)) :
    last.kernel.machine.switches = changes (occupants last.kernel.machine.trace) ∧
      ∀ events next, last.step = .ok (events, next) →
        (ChangesHands last.kernel.machine.trace
            (occupantAt next.kernel.machine.trace last.now) →
          next.kernel.machine.switches = last.kernel.machine.switches + 1) ∧
        (¬ChangesHands last.kernel.machine.trace
            (occupantAt next.kernel.machine.trace last.now) →
          next.kernel.machine.switches = last.kernel.machine.switches) := by
  obtain ⟨scheduler, _, isInitial⟩ := exists_initial created
  obtain ⟨underway, _⟩ := ofWorkload_underway created positive
  have initially : first.kernel.machine.Counted (occupants first.kernel.machine.trace) := by
    rw [isInitial]
    exact ⟨rfl, rfl, by simp [Kernel.initial, Machine.ofWorkload]⟩
  have counted {count : Nat} {log : List Event} {last : Simulation}
      (driven : first.steps count = .ok (log, last)) :
      last.kernel.machine.switches = changes (occupants last.kernel.machine.trace) ∧
        last.Underway workload := by
    obtain ⟨_, _, counted, stillUnderway⟩ :=
      (Kernel.maintained_counted workload scheduler).steps [] underway (by rw [isInitial]; rfl)
        (by rw [isInitial]; rfl) initially driven
    exact ⟨counted.switches, stillUnderway⟩
  obtain ⟨switches, stillUnderway⟩ := counted driven
  refine ⟨switches, fun events next stepped => ?_⟩
  have laterSwitches := (counted (steps_succ driven stepped)).1
  rw [stillUnderway.occupants_step stepped] at laterSwitches
  constructor
  · intro handed
    rw [laterSwitches, changes_of_changesHands handed, switches]
  · intro kept
    rw [laterSwitches, changes_of_not_changesHands kept, switches]

/-- With slices of one tick, the first job has its last two ticks in two slices of its own, and an
idle wait follows; the switch to the third job is that of the tick behind it. -/
theorem steps_counted_across_gap :
    ∃ first last next log events,
      ofWorkload [⟨0, 3, 0⟩, ⟨1, 1, 0⟩, ⟨6, 1, 0⟩] { quantum := some 1 } .roundRobin = .ok first ∧
      first.steps 4 = .ok (log, last) ∧ last.step = .ok (events, next) ∧
      last.kernel.machine.trace.toList.map (·.occupant) =
        [some 1, some 2, some 1, some 1, none, none] ∧
      occupantAt next.kernel.machine.trace last.now = some 3 ∧
      changes (occupants last.kernel.machine.trace) = 2 ∧
      last.kernel.machine.switches = changes (occupants last.kernel.machine.trace) ∧
      ChangesHands last.kernel.machine.trace (occupantAt next.kernel.machine.trace last.now) ∧
      next.kernel.machine.switches = last.kernel.machine.switches + 1 := by
  have driven : ((ofWorkload [⟨0, 3, 0⟩, ⟨1, 1, 0⟩, ⟨6, 1, 0⟩] { quantum := some 1 }
      .roundRobin).toOption.bind fun first => (first.steps 4).toOption.bind fun result =>
        result.2.step.toOption.map fun stepped =>
          (result.2.kernel.machine.trace.toList.map (·.occupant),
            occupantAt stepped.2.kernel.machine.trace result.2.now)) =
      some ([some 1, some 2, some 1, some 1, none, none], some 3) := by
    decide +kernel
  obtain ⟨first, isFirst, steps⟩ := Option.bind_eq_some_iff.mp driven
  obtain ⟨⟨log, last⟩, isLast, step⟩ := Option.bind_eq_some_iff.mp steps
  obtain ⟨⟨events, next⟩, isNext, same⟩ := Option.map_eq_some_iff.mp step
  obtain ⟨record, occupant⟩ := Prod.mk.inj same
  have created := toOption_eq_some_iff.mp isFirst
  have stepped := toOption_eq_some_iff.mp isLast
  have steps := toOption_eq_some_iff.mp isNext
  have listed : occupants last.kernel.machine.trace = [1, 2, 1, 1] := by
    have ids : occupants last.kernel.machine.trace =
        (last.kernel.machine.trace.toList.map (·.occupant)).filterMap id := by
      simp [occupants, List.filterMap_map]
    rw [ids, record]
    rfl
  have handed : ChangesHands last.kernel.machine.trace
      (occupantAt next.kernel.machine.trace last.now) :=
    ⟨1, 3, by simp [listed], occupant, by decide⟩
  obtain ⟨switches, adds⟩ := steps_counted created (by decide) stepped
  exact ⟨first, last, next, log, events, created, stepped, steps, record, occupant,
    by rw [listed]; rfl, switches, handed, (adds events next steps).1 handed⟩

end Simulation

end CpuScheduling
