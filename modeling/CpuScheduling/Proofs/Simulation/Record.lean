import CpuScheduling.Proofs.Log.Machine
import CpuScheduling.Proofs.Simulation.Steps

/-!
The events of a run are a complete record of it.  A machine that nothing has happened to is
told by the empty log, and every wake, tick and idle wait adds just what has happened, so at
the end of a run the log tells what the books, the trace and the count of switches tell.
-/

namespace CpuScheduling

namespace Kernel

variable {workload : List Spec} {kernel : Kernel} {log : List Event}

theorem Phases.adds {requeued started worked closed : Machine} {work : Work}
    (phases : Phases workload kernel requeued started work worked closed)
    (settled : kernel.machine.Settled workload)
    (told : kernel.machine.Told kernel.scheduler log) :
    kernel.machine.Adds kernel.scheduler log closed := by
  obtain ⟨first, isFirst, toldFirst, answersFirst⟩ :=
    told.requeueExpired settled.placement phases.requeues
  obtain ⟨second, isSecond, toldSecond, answersSecond⟩ :=
    toldFirst.dispatch phases.settled.placement phases.dispatches
  obtain ⟨third, isThird, toldThird, answersThird⟩ :=
    toldSecond.work phases.startedOrder.placement phases.works
  have toldAll := toldThird.closeTick phases.workedOrder.placement.nodup phases.closes
  obtain ⟨jobs, ready, expired, isClosed⟩ := Scheduler.closeTick_same phases.closes
  refine ⟨first ++ second ++ third, ?_, ?_, (answersFirst.append answersSecond).append answersThird⟩
  · rw [isClosed, isThird, isSecond, isFirst, List.append_assoc, List.append_assoc,
      List.append_assoc]
  · simpa only [List.append_assoc] using toldAll

theorem maintained_told (workload : List Spec) (scheduler : Scheduler) :
    Maintained workload scheduler fun history kernel =>
      kernel.machine.Told scheduler (history.map (·.2)) ∧ Answered (history.map (·.2)) where
  wake := by
    rintro history kernel next woken job awaited _ _ _ wakes ⟨told, answered⟩
    obtain ⟨found, ready, present, isPending, _, _, rfl⟩ := wake_ok wakes
    rw [List.map_append]
    exact ⟨told.woken ready present isPending, answered.append (.of_forall_ne (by simp))⟩
  tick := by
    rintro history kernel woken awaited requeued started work worked closed news conserving rfl _
      phases isNews _ _ ⟨told, answered⟩
    obtain ⟨added, isAdded, toldAll, answers⟩ := phases.adds conserving.orderly.settled told
    cases List.append_cancel_left (isAdded.symm.trans isNews)
    rw [List.map_append, stamped, List.map_map, Function.comp_def, List.map_id']
    exact ⟨toldAll.of_same toldAll.courses rfl rfl rfl toldAll.slices, answered.append answers⟩
  rest := by
    rintro history kernel woken awaited ticks time _ _ _ _ ⟨told, answered⟩
    rw [List.map_append]
    refine ⟨told.concat (told.courses.idle ticks) rfl rfl ?_ trivial trivial fun expired => expired,
      answered.append (.of_forall_ne (by simp))⟩
    simp [Kernel.rested, Machine.rested, idleTicks_append_idleTrace, Event.idleTicks]

theorem told_initial (workload : List Spec) (scheduler : Scheduler) :
    (initial workload scheduler).machine.Told scheduler [] := by
  refine .nil_of_pending (fun id job present => ?_) rfl rfl rfl
  obtain ⟨index, spec, _, rfl⟩ := Job.mem_ofWorkload.mp (Machine.mem_jobs_of_job? present)
  exact ⟨rfl, rfl⟩

end Kernel

namespace Simulation

variable {workload : List Spec} {config : Config} {policy : Policy} {first last : Simulation}
  {log : List Event} {count : Nat}

/-- However a run is driven to its end, its events are a complete record of it. -/
theorem steps_recorded (created : ofWorkload workload config policy = .ok first)
    (driven : first.steps count = .ok (log, last)) (finished : last.allFinished = true) :
    Recorded policy log last.kernel.machine.jobs last.kernel.machine.switches
        (idleTicks last.kernel.machine.trace).length ∧
      (workload ≠ [] → ∃ schedule, last.schedule = .ok schedule ∧
        Recorded policy log schedule.jobs schedule.metrics.contextSwitches
          schedule.metrics.idleTicks) := by
  obtain ⟨scheduler, decides, isInitial⟩ := exists_initial created
  obtain ⟨underway, _⟩ :=
    ofWorkload_underway created (positive_of_steps created driven finished)
  have initially : first.kernel.machine.Told scheduler [] ∧ Answered [] :=
    ⟨isInitial ▸ Kernel.told_initial workload scheduler, .nil⟩
  obtain ⟨history, rfl, ⟨told, answered⟩, stillUnderway⟩ :=
    (Kernel.maintained_told workload scheduler).steps [] underway (by rw [isInitial]; rfl)
      (by rw [isInitial]; rfl) initially driven
  rw [List.nil_append] at told answered
  obtain ⟨woken, awaited, conserving, _⟩ := stillUnderway.conserving
  have settled := conserving.orderly.settled
  have allDone := settled.allFinished_iff.mp finished
  have recorded : Recorded policy (history.map (·.2)) last.kernel.machine.jobs
      last.kernel.machine.switches (idleTicks last.kernel.machine.trace).length := {
    courses := by
      intro job member
      obtain ⟨id, present⟩ := Machine.exists_job?_of_mem member
      have named : job.id = id := (settled.blank_eq present).1
      have course := told.courses id job present
      rw [allDone job member] at course
      obtain ⟨served, time, completion, serves, story⟩ := course.served
      exact ⟨served, time, completion, named ▸ serves, named ▸ story⟩
    chained := told.chained
    switches := told.switches.symm
    answered := answered
    policies := Scheduler.policy_of_ofPolicy decides ▸ told.policies
    idle := told.idle.symm }
  refine ⟨recorded, fun nonempty => ?_⟩
  have someJob : last.kernel.machine.jobs ≠ [] := by
    intro none
    have table := congrArg List.length settled.table
    rw [none, List.length_map, List.length_nil, Job.length_ofWorkload] at table
    exact nonempty (List.length_eq_zero_iff.mp table.symm)
  obtain ⟨schedule, schedules, reports⟩ := exists_schedule someJob allDone
  refine ⟨schedule, schedules, ?_⟩
  rw [reports.jobs, reports.switches, reports.idleTicks]
  exact recorded

/-- One job takes the CPU from another, and the last one arrives after the limit on ticks. -/
theorem steps_recorded_beyond_limit :
    ∃ first last schedule log,
      ofWorkload [⟨0, 3, 0⟩, ⟨1, 1, 0⟩, ⟨6, 1, 0⟩] { maxTicks := 5 } .srtf = .ok first ∧
      first.steps 6 = .ok (log, last) ∧ last.allFinished = true ∧
      last.schedule = .ok schedule ∧
      log = [.arrival 1, .dispatch 1 none false, .arrival 2, .preempt 1 2,
        .dispatch 2 (some 1) true, .complete 2 2, .dispatch 1 (some 2) true, .complete 1 4,
        .cpuIdle 1, .cpuIdle 1, .arrival 3, .dispatch 3 (some 1) true, .complete 3 7] ∧
      Recorded .srtf log schedule.jobs schedule.metrics.contextSwitches
        schedule.metrics.idleTicks := by
  have driven : ((ofWorkload [⟨0, 3, 0⟩, ⟨1, 1, 0⟩, ⟨6, 1, 0⟩] { maxTicks := 5 }
      .srtf).toOption.bind fun first => (first.steps 6).toOption.map fun result =>
        (result.1, result.2.allFinished)) =
      some ([.arrival 1, .dispatch 1 none false, .arrival 2, .preempt 1 2,
        .dispatch 2 (some 1) true, .complete 2 2, .dispatch 1 (some 2) true, .complete 1 4,
        .cpuIdle 1, .cpuIdle 1, .arrival 3, .dispatch 3 (some 1) true, .complete 3 7], true) := by
    decide +kernel
  obtain ⟨first, isFirst, steps⟩ := Option.bind_eq_some_iff.mp driven
  obtain ⟨⟨log, last⟩, isLast, same⟩ := Option.map_eq_some_iff.mp steps
  obtain ⟨isLog, finished⟩ := Prod.mk.inj same
  have created := toOption_eq_some_iff.mp isFirst
  have stepped := toOption_eq_some_iff.mp isLast
  obtain ⟨_, reports⟩ := steps_recorded created stepped finished
  obtain ⟨schedule, schedules, recorded⟩ := reports (by simp)
  exact ⟨first, last, schedule, log, created, stepped, finished, schedules, isLog, recorded⟩

end Simulation

end CpuScheduling
