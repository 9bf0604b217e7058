import CpuScheduling.Proofs.Simulation.Accounts
import CpuScheduling.Proofs.Simulation.History

/-!
The books of a completed run can be read off its trace, entry by entry: what is known
of a job in the end is what was submitted and the ticks in which it had the CPU.
-/

namespace CpuScheduling

/-- The books of a job that has finished, by the ticks in which it had the CPU. -/
def Job.closed (job : Job) (held : List Nat) : Job :=
  let completion := held.getLast?.map (· + 1)
  let turnaround := completion.map (· - job.arrival)
  { job with
    effectivePriority := job.priority
    phase := .finished
    remaining := 0
    firstStart := held.head?
    completion := completion
    turnaround := turnaround
    waiting := turnaround.map (· - job.service)
    response := held.head?.map (· - job.arrival) }

def Scheduler.ages : Scheduler → Bool
  | agingRoundRobin _ _ => true
  | _ => false

theorem Job.Balanced.eq_closed {fixesWaiting : Bool} {now : Nat} {held : List Nat} {job : Job}
    (balanced : job.Balanced fixesWaiting now held) (isFinished : job.phase = .finished)
    (base : job.effectivePriority = job.priority) : job = job.blank.closed held := by
  have firstStart := balanced.firstStart_eq
  have response := balanced.response_eq
  have completion := balanced.completion_eq
  have turnaround := balanced.turnaround_eq
  have waiting := balanced.waiting_eq
  have remaining := balanced.finished_iff.mp isFinished
  cases job with
  | mk id arrival service priority effectivePriority phase left start stop span waited answer =>
      cases isFinished
      cases base
      cases remaining
      simp only [reduceCtorEq, ↓reduceIte] at firstStart response completion turnaround waiting
      subst firstStart completion turnaround waiting response
      rfl

namespace Machine

variable {workload : List Spec} {scheduler : Scheduler} {machine next : Machine} {id : Nat}
  {old job : Job}

/-- Only the priorities of jobs that wait grow, and only where waiting adds to them. -/
def Plain (scheduler : Scheduler) (machine : Machine) : Prop :=
  ∀ id job, machine.job? id = some job → scheduler.ages = false ∨ job.phase ≠ .ready →
    job.effectivePriority = job.priority

namespace Plain

theorem put (plain : machine.Plain scheduler) (present : machine.job? id = some old)
    (base : scheduler.ages = false ∨ job.phase ≠ .ready → job.effectivePriority = job.priority) :
    (machine.put id job).Plain scheduler := by
  intro other found isFound
  rw [job?_put present] at isFound
  split at isFound
  · cases isFound
    exact base
  · exact plain other found isFound

theorem ready (plain : machine.Plain scheduler) (present : machine.job? id = some job) :
    (machine.put id { job with phase := .ready }).Plain scheduler := by
  refine plain.put present fun base => ?_
  exact plain id job present (base.imp_right fun waits => absurd rfl waits)

theorem restored (plain : machine.Plain scheduler) (present : machine.job? id = some job) :
    (scheduler.restored job).effectivePriority = (scheduler.restored job).priority := by
  cases scheduler with
  | agingRoundRobin quantum step => rfl
  | _ => exact plain id job present (.inl rfl)

theorem fillCpu (plain : machine.Plain scheduler)
    (fills : scheduler.fillCpu machine = .ok next) : next.Plain scheduler := by
  rcases Scheduler.fillCpu_ok fills with
    ⟨_, rfl⟩ | ⟨id, job, started, _, _, present, booked, rfl⟩
  · exact plain
  · refine plain.put present fun _ => ?_
    obtain ⟨_, _, _, rfl⟩ := startBooks_ok booked
    exact plain.restored present

theorem contest (plain : machine.Plain scheduler) (steady : scheduler.ages = false)
    (current : machine.cpu.current = some id) (contests : scheduler.contest machine id = .ok next) :
    next.Plain scheduler := by
  rcases Scheduler.contest_ok current contests with
    ⟨_, rfl⟩ | ⟨job, candidateId, candidate, _, present, _, rest⟩
  · exact plain
  · rcases rest with ⟨_, rfl⟩ | ⟨_, ready, started, waiting, _, _, _, isWaiting, booked, rfl⟩
    · exact plain
    · have released := plain.ready present
      refine put released isWaiting fun _ => ?_
      obtain ⟨_, _, _, rfl⟩ := startBooks_ok booked
      exact released candidateId waiting isWaiting (.inl steady)

theorem dispatch (plain : machine.Plain scheduler)
    (dispatches : scheduler.dispatch machine = .ok next) : next.Plain scheduler := by
  cases current : machine.cpu.current with
  | none =>
      simp only [Scheduler.dispatch, current] at dispatches
      exact plain.fillCpu dispatches
  | some id =>
      simp only [Scheduler.dispatch, current] at dispatches
      cases scheduler with
      | srtf | preemptivePriority => exact plain.contest rfl current dispatches
      | _ =>
          cases dispatches
          exact plain

theorem work {work : Work} {clock : Nat} (plain : machine.Plain scheduler)
    (orderly : machine.Orderly workload clock [])
    (works : machine.recordTrace.runCurrent = .ok (work, next)) : next.Plain scheduler := by
  rcases work_ok works with ⟨_, _, rfl⟩ | ⟨id, job, current, present, rest⟩
  · exact plain
  · have base : job.effectivePriority = job.priority := by
      refine plain id job present (.inr ?_)
      rw [orderly.phase_of_current current present]
      simp
    rcases rest with ⟨_, _, _, rfl⟩ | ⟨_, _, completed, booked, rfl⟩
    · exact plain.put present fun _ => base
    · refine plain.put present fun _ => ?_
      obtain ⟨_, _, rfl⟩ := completeBooks_ok booked
      exact base

theorem endSlice (plain : machine.Plain scheduler)
    (waiting : ∀ id ∈ machine.ready.ids, machine.phase? id = some .ready)
    (nodup : machine.ready.ids.Nodup) (ends : scheduler.endSlice machine = .ok next) :
    next.Plain scheduler := by
  intro id job present base
  obtain ⟨_, _, aged⟩ := Scheduler.endSlice_ok nodup ends
  rw [aged] at present
  split at present
  next waits =>
    obtain ⟨old, isOld, rfl⟩ := Option.map_eq_some_iff.mp present
    have isReady : old.phase = .ready :=
      Option.some.inj ((phase?_of_job? isOld).symm.trans (waiting id waits))
    cases scheduler with
    | agingRoundRobin quantum step =>
        have stillReady : ((Scheduler.agingRoundRobin quantum step).afterSlice old).phase =
            .ready := by
          obtain ⟨priority, isAged⟩ :=
            Scheduler.exists_afterSlice_eq (.agingRoundRobin quantum step) old
          rw [isAged, isReady]
        simp [stillReady, Scheduler.ages] at base
    | _ => exact plain id old isOld (.inl rfl)
  next => exact plain id job present base

theorem closeTick {work : Work} {clock : Nat} (plain : machine.Plain scheduler)
    (orderly : machine.Orderly workload clock [])
    (closes : scheduler.closeTick work machine = .ok next) : next.Plain scheduler := by
  have waiting : ∀ id ∈ machine.ready.ids, machine.phase? id = some .ready := fun id waits =>
    (orderly.placement.mem_iff id).mp waits
  have nodup := orderly.placement.nodup
  rcases Scheduler.closeTick_ok closes with ⟨rfl, _⟩ | ⟨_, ends⟩ | ⟨_, _, _, _, _, ends⟩
  · exact plain
  · exact plain.endSlice waiting nodup ends
  · have marked : machine.markExpired.Plain scheduler := plain
    exact marked.endSlice waiting nodup ends

end Plain

end Machine

namespace Kernel

/-- Priorities that do not grow stay what they are in every phase of a tick. -/
theorem Phases.plain {workload : List Spec} {kernel : Kernel}
    {requeued started worked closed : Machine} {work : Work}
    (phases : Phases workload kernel requeued started work worked closed)
    (plain : kernel.machine.Plain kernel.scheduler) :
    (kernel.afterTick closed).machine.Plain kernel.scheduler := by
  have requeued : requeued.Plain kernel.scheduler := by
    rcases Scheduler.requeueExpired_ok phases.requeues with
      ⟨_, rfl⟩ | ⟨_, _, _, _, _, present, _, _, rfl⟩
    · exact plain
    · exact plain.ready present
  have started := requeued.dispatch phases.dispatches
  have worked := started.work phases.startedOrder phases.works
  have closed : closed.Plain kernel.scheduler := worked.closeTick phases.workedOrder phases.closes
  exact closed

theorem wake_plain {kernel next : Kernel} {scheduler : Scheduler} {id : Nat}
    (plain : kernel.machine.Plain scheduler) (wakes : kernel.wake id = .ok next) :
    next.machine.Plain scheduler := by
  obtain ⟨_, _, present, _, _, _, rfl⟩ := wake_ok wakes
  exact plain.ready present

theorem maintained_plain (workload : List Spec) (scheduler : Scheduler) :
    Maintained workload scheduler fun _ kernel => kernel.machine.Plain scheduler where
  wake := by
    intro _ kernel next woken job awaited _ _ _ wakes plain
    exact wake_plain plain wakes
  tick := by
    rintro _ kernel woken awaited requeued started work worked closed news _ rfl _ phases _ _ _ plain
    exact phases.plain plain
  rest := by
    intro _ kernel woken awaited ticks _ _ _ _ _ plain
    exact plain

end Kernel

variable {workload : List Spec} {config : Config} {policy : Policy} {schedule : Schedule}

theorem chronological_of_simulate (ran : simulate workload config policy = .ok schedule) :
    Chronological schedule.trace ∧ schedule.trace.size = makespan workload := by
  obtain ⟨last, orderly, inTime, _, reports⟩ := exists_last_of_simulate ran
  obtain ⟨woken, awaited, conserving, _⟩ := orderly.conserving
  have settled := conserving.orderly.settled
  rw [reports.record]
  exact ⟨settled.chronological, settled.elapsed.trans inTime⟩

theorem timeline_of_simulate (ran : simulate workload config policy = .ok schedule) :
    schedule.timeline = (List.range (makespan workload)).map (occupantAt schedule.trace) := by
  obtain ⟨ordered, size⟩ := chronological_of_simulate ran
  rw [Schedule.timeline, ordered.toList_eq, size, List.map_map]
  rfl

/-- The books of a completed run are those that its trace tells. -/
theorem jobs_of_simulate (ran : simulate workload config policy = .ok schedule) :
    schedule.jobs = (Job.ofWorkload workload).map fun job =>
      job.closed (heldTicks schedule.trace job.id) := by
  obtain ⟨scheduler, decides⟩ := exists_scheduler_of_simulate ran
  have initially : (Kernel.initial workload scheduler).machine.Plain scheduler := by
    intro id job present _
    obtain ⟨spec, _, rfl⟩ := Machine.job?_ofWorkload present
    rfl
  obtain ⟨last, woken, conserving, _, finished, reports, plain⟩ :=
    (Kernel.maintained_plain workload scheduler).simulate decides initially ran
  have settled := conserving.orderly.settled
  rw [reports.jobs, reports.record, ← settled.table, List.map_map]
  refine (List.map_id _).symm.trans (List.map_congr_left fun job member => ?_)
  obtain ⟨id, present⟩ := Machine.exists_job?_of_mem member
  have isFinished := settled.allFinished_iff.mp finished job member
  have balanced := settled.balanced id job present
  rw [← (settled.blank_eq present).1] at balanced
  exact balanced.eq_closed isFinished (plain id job present (.inr (by simp [isFinished])))

theorem mem_jobs_of_simulate {job : Job} (ran : simulate workload config policy = .ok schedule) :
    job ∈ schedule.jobs ↔ ∃ submitted ∈ Job.ofWorkload workload,
      submitted.closed (heldTicks schedule.trace submitted.id) = job := by
  rw [jobs_of_simulate ran, List.mem_map]

/-- The trace accounts for every job that has been submitted. -/
theorem traced_of_submitted {job : Job} (ran : simulate workload config policy = .ok schedule)
    (submitted : job ∈ Job.ofWorkload workload) :
    ∃ start completion waiting, (job.closed (heldTicks schedule.trace job.id)).Traced
      schedule.trace start completion waiting := by
  have reported := (mem_jobs_of_simulate ran).mpr ⟨job, submitted, rfl⟩
  obtain ⟨start, completion, waiting, traced, _⟩ := (traced_of_simulate ran).2 _ reported
  exact ⟨start, completion, waiting, traced⟩

theorem getElem?_jobs_of_simulate (ran : simulate workload config policy = .ok schedule)
    (index : Nat) :
    schedule.jobs[index]? = workload[index]?.map fun spec =>
      (Job.ofSpec (index + 1) spec).closed (heldTicks schedule.trace (index + 1)) := by
  rw [jobs_of_simulate ran, List.getElem?_map, Job.getElem?_ofWorkload, Option.map_map]
  rfl

end CpuScheduling
