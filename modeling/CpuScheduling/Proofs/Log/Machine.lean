import CpuScheduling.Proofs.Kernel.Effects
import CpuScheduling.Proofs.Log.Basic

/-!
A machine whose log tells how it has come about.  Each operation adds the events that
tell what it has done, so the log keeps up with the machine.
-/

namespace CpuScheduling

namespace Machine

def Courses (log : List Event) (machine : Machine) : Prop :=
  ∀ id job, machine.job? id = some job → Course id job.phase job.completion (about id log)

structure Told (scheduler : Scheduler) (log : List Event) (machine : Machine) : Prop where
  courses : machine.Courses log
  last : machine.cpu.last = (dispatched log).getLast?
  switches : machine.switches = switchCount log
  idle : (idleTicks machine.trace).length = idleSum log
  chained : Chained log
  policies : ∀ event ∈ log, event.OccursUnder scheduler.policy
  slices : machine.cpu.sliceExpired = true →
    ∀ id, (Event.sliceExpired id).OccursUnder scheduler.policy

/-- The next machine has the events of this one and those that tell of the change. -/
def Adds (scheduler : Scheduler) (log : List Event) (machine next : Machine) : Prop :=
  ∃ news, next.events = machine.events ++ news ∧ next.Told scheduler (log ++ news) ∧ Answered news

variable {machine next : Machine} {scheduler : Scheduler} {log : List Event} {event : Event}
  {id : Nat} {old job : Job}

namespace Courses

theorem of_same (courses : machine.Courses log)
    (same : ∀ id job, next.job? id = some job → ∃ old, machine.job? id = some old ∧
      job.phase = old.phase ∧ job.completion = old.completion) : next.Courses log := by
  intro id job present
  obtain ⟨old, isOld, phase, completion⟩ := same id job present
  rw [phase, completion]
  exact courses id old isOld

theorem put_same (courses : machine.Courses log) (present : machine.job? id = some old)
    (job : Job) (phase : job.phase = old.phase) (completion : job.completion = old.completion) :
    (machine.put id job).Courses log := by
  refine courses.of_same fun other found isFound => ?_
  rw [job?_put present] at isFound
  split at isFound
  next same =>
    cases isFound
    exact ⟨old, same ▸ present, phase, completion⟩
  next => exact ⟨found, isFound, rfl, rfl⟩

/-- An event about a job moves that job on, and nobody else. -/
theorem put (courses : machine.Courses log) (present : machine.job? id = some old) (job : Job)
    (subject : event.subject? = some id)
    (moves : Course id old.phase old.completion (about id log) →
      Course id job.phase job.completion (about id log ++ [event])) :
    (machine.put id job).Courses (log ++ [event]) := by
  intro other found isFound
  rw [job?_put present] at isFound
  split at isFound
  next same =>
    cases isFound
    subst same
    rw [about_concat_self subject]
    exact moves (courses other old present)
  next different =>
    have elsewhere : event.subject? ≠ some other := fun same =>
      different (Option.some.inj (same.symm.trans subject))
    rw [about_concat_of_ne elsewhere]
    exact courses other found isFound

theorem idle (courses : machine.Courses log) (ticks : Nat) :
    machine.Courses (log ++ [.cpuIdle ticks]) := by
  intro id job present
  rw [about_concat_of_ne (by simp [Event.subject?])]
  exact courses id job present

end Courses

theorem switchesTo_iff :
    machine.switchesTo id = true ↔ ∃ other, machine.cpu.last = some other ∧ other ≠ id := by
  cases last : machine.cpu.last <;> simp [switchesTo, last]

namespace Told

theorem nil_of_pending (courses : ∀ id job, machine.job? id = some job →
      job.phase = .pending ∧ job.completion = none)
    (cpu : machine.cpu = {}) (switches : machine.switches = 0) (record : machine.trace = #[]) :
    machine.Told scheduler [] where
  courses id job present := by
    obtain ⟨phase, completion⟩ := courses id job present
    rw [phase, completion]
    exact .pending
  last := by rw [cpu]; rfl
  switches := switches
  idle := by rw [record]; rfl
  chained := .nil
  policies := by simp
  slices expired := by simp [cpu] at expired

theorem concat (told : machine.Told scheduler log) (courses : next.Courses (log ++ [event]))
    (last : next.cpu.last = event.dispatched?.or machine.cpu.last)
    (switches : next.switches = machine.switches + if event.isSwitch then 1 else 0)
    (idle : (idleTicks next.trace).length = (idleTicks machine.trace).length + event.idleTicks)
    (names : event.Names machine.cpu.last) (occurs : event.OccursUnder scheduler.policy)
    (slices : next.cpu.sliceExpired = true → machine.cpu.sliceExpired = true) :
    next.Told scheduler (log ++ [event]) where
  courses := courses
  last := by rw [last, told.last, getLast?_dispatched_concat]
  switches := by rw [switches, told.switches, switchCount_concat]
  idle := by rw [idle, told.idle, idleSum_concat]
  chained := told.chained.concat (told.last ▸ names)
  policies other member := by
    rcases List.mem_append.mp member with before | now
    · exact told.policies other before
    · exact List.mem_singleton.mp now ▸ occurs
  slices expired := told.slices (slices expired)

theorem of_same (told : machine.Told scheduler log) (courses : next.Courses log)
    (last : next.cpu.last = machine.cpu.last) (switches : next.switches = machine.switches)
    (idle : (idleTicks next.trace).length = (idleTicks machine.trace).length)
    (slices : next.cpu.sliceExpired = true →
      ∀ id, (Event.sliceExpired id).OccursUnder scheduler.policy) :
    next.Told scheduler log where
  courses := courses
  last := last.trans told.last
  switches := switches.trans told.switches
  idle := idle.trans told.idle
  chained := told.chained
  policies := told.policies
  slices := slices

theorem adds_nothing (told : machine.Told scheduler log) : machine.Adds scheduler log machine :=
  ⟨[], (List.append_nil _).symm, by rwa [List.append_nil], .nil⟩

variable (told : machine.Told scheduler log)

include told

theorem woken (ready : ReadyQueue) (present : machine.job? id = some job)
    (isPending : job.phase = .pending) :
    (Kernel.woken machine id job ready).Told scheduler (log ++ [.arrival id]) := by
  have courses := told.courses.put present { job with phase := .ready } rfl fun course => by
    rw [isPending] at course
    exact course.arrival
  exact told.concat courses rfl rfl rfl trivial trivial fun expired => expired

theorem released (present : machine.job? id = some job) (running : job.phase = .running)
    (displaces : event.Displaces id) (occurs : event.OccursUnder scheduler.policy) :
    (machine.released id job event).Told scheduler (log ++ [event]) := by
  have subject : event.subject? = some id := by
    rcases displaces with rfl | ⟨displacing, rfl⟩ <;> rfl
  have courses := told.courses.put present { job with phase := .ready } subject
    fun course => by
      rw [running] at course
      exact course.displaced displaces
  rcases displaces with rfl | ⟨displacing, rfl⟩
  · exact told.concat courses rfl rfl rfl trivial occurs (by simp [Machine.released, emit])
  · exact told.concat courses rfl rfl rfl trivial occurs (by simp [Machine.released, emit])

theorem given (present : machine.job? id = some job) (ready : job.phase = .ready)
    (started : Job) (phase : started.phase = .running)
    (completion : started.completion = job.completion) :
    (machine.given id started).Told scheduler
      (log ++ [.dispatch id machine.cpu.last (machine.switchesTo id)]) := by
  have courses := told.courses.put present started rfl fun course => by
    rw [ready] at course
    rw [phase, completion]
    exact course.dispatch machine.cpu.last (machine.switchesTo id)
  exact told.concat courses rfl rfl rfl ⟨rfl, switchesTo_iff⟩ trivial
    (by simp [Machine.given, emit])

section Phases

variable (placement : Placement machine.phase? machine.cpu.current machine.ready.ids)

include placement

theorem requeueExpired (requeues : scheduler.requeueExpired machine = .ok next) :
    machine.Adds scheduler log next := by
  rcases Scheduler.requeueExpired_ok requeues with
    ⟨_, rfl⟩ | ⟨id, job, ready, current, expired, present, _, _, rfl⟩
  · exact told.adds_nothing
  · have running := placement.running_of_current current present
    have left := told.released present running (.inl rfl) (told.slices expired id)
    exact ⟨[.sliceExpired id], rfl, left.of_same left.courses rfl rfl rfl left.slices,
      .of_forall_ne (by simp)⟩

theorem fillCpu (fills : scheduler.fillCpu machine = .ok next) :
    machine.Adds scheduler log next := by
  rcases Scheduler.fillCpu_ok fills with
    ⟨_, rfl⟩ | ⟨id, job, started, picked, _, present, booked, rfl⟩
  · exact told.adds_nothing
  · have waits := ReadyQueue.mem_ids_of_peek picked
    have isReady := placement.ready_of_mem waits present
    have popped : machine.pop.2.Told scheduler log :=
      told.of_same told.courses rfl rfl rfl told.slices
    have completion : (scheduler.restored job).completion = job.completion := by
      cases scheduler <;> rfl
    obtain ⟨_, _, _, rfl⟩ := startBooks_ok booked
    exact ⟨[.dispatch id machine.cpu.last (machine.switchesTo id)], rfl,
      popped.given present isReady _ rfl completion, .of_forall_ne (by simp)⟩

theorem contest (current : machine.cpu.current = some id)
    (contests : scheduler.contest machine id = .ok next) : machine.Adds scheduler log next := by
  rcases Scheduler.contest_ok current contests with
    ⟨_, rfl⟩ | ⟨job, candidateId, candidate, picked, present, isCandidate, rest⟩
  · exact told.adds_nothing
  · rcases rest with ⟨_, rfl⟩ | ⟨wins, ready, started, waiting, _, _, _, isWaiting, booked, rfl⟩
    · exact told.adds_nothing
    · have running := placement.running_of_current current present
      have waits := ReadyQueue.mem_ids_of_peek picked
      have candidateReady := placement.ready_of_mem waits isCandidate
      have different : candidateId ≠ id := by
        rintro rfl
        cases present.symm.trans isCandidate
        simp [running] at candidateReady
      have preemptive : scheduler.policy = .srtf ∨ scheduler.policy = .preemptivePriority := by
        cases scheduler with
        | srtf => exact .inl rfl
        | preemptivePriority => exact .inr rfl
        | _ => cases wins
      have left : (machine.pop.2.released id job (.preempt id candidateId)).Told scheduler
          (log ++ [.preempt id candidateId]) :=
        Told.released (told.of_same told.courses rfl rfl rfl told.slices) present running
          (.inr ⟨candidateId, rfl⟩) preemptive
      have queued : Told scheduler (log ++ [.preempt id candidateId])
          { machine.pop.2.released id job (.preempt id candidateId) with ready := ready } :=
        left.of_same left.courses rfl rfl rfl left.slices
      have stillReady : waiting.phase = .ready := by
        have asBefore := (job?_put present { job with phase := .ready } candidateId).symm.trans
          isWaiting
        rw [if_neg different, isCandidate] at asBefore
        exact Option.some.inj asBefore ▸ candidateReady
      obtain ⟨_, _, _, isStarted⟩ := startBooks_ok booked
      have both := queued.given isWaiting stillReady started (by rw [isStarted]) (by rw [isStarted])
      rw [List.append_assoc] at both
      exact ⟨_, List.append_assoc machine.events _ _, both, .preempt id candidateId _ _⟩

theorem dispatch (dispatches : scheduler.dispatch machine = .ok next) :
    machine.Adds scheduler log next := by
  rcases Scheduler.dispatch_ok dispatches with ⟨_, fills⟩ | ⟨id, current, rfl | contests⟩
  · exact told.fillCpu placement fills
  · exact told.adds_nothing
  · exact told.contest placement current contests

theorem work {work : Work} (works : machine.recordTrace.runCurrent = .ok (work, next)) :
    machine.Adds scheduler log next := by
  rcases work_ok works with ⟨nobody, _, rfl⟩ | ⟨id, job, current, present, rest⟩
  · refine ⟨[.cpuIdle 1], rfl, told.concat (told.courses.idle 1) rfl rfl ?_ trivial trivial
      (fun expired => expired), .of_forall_ne (by simp)⟩
    simp [recorded, emit, idleTicks_push, nobody, Event.idleTicks]
  · have busy : (idleTicks machine.recorded.trace).length = (idleTicks machine.trace).length := by
      simp [recorded, idleTicks_push, current]
    rcases rest with ⟨_, _, _, rfl⟩ | ⟨_, _, completed, booked, rfl⟩
    · have courses :=
        told.courses.put_same present { job with remaining := job.remaining - 1 } rfl rfl
      refine ⟨[], (List.append_nil _).symm, ?_, .nil⟩
      rw [List.append_nil]
      exact told.of_same courses rfl rfl busy told.slices
    · have running := placement.running_of_current current present
      obtain ⟨_, _, rfl⟩ := completeBooks_ok booked
      refine ⟨[.complete id (machine.now + 1)], rfl,
        told.concat (told.courses.put present _ rfl fun course => ?_) rfl rfl busy trivial trivial
          (by simp [emit]), .of_forall_ne (by simp)⟩
      rw [running] at course
      exact course.complete (machine.now + 1)

end Phases

theorem endSlice (nodup : machine.ready.ids.Nodup) (ends : scheduler.endSlice machine = .ok next) :
    next.Told scheduler log := by
  obtain ⟨⟨jobs, ready, rfl⟩, _, aged⟩ := Scheduler.endSlice_ok nodup ends
  refine told.of_same (told.courses.of_same fun id job present => ?_) rfl rfl rfl told.slices
  rw [aged] at present
  split at present
  next =>
    obtain ⟨old, isOld, rfl⟩ := Option.map_eq_some_iff.mp present
    obtain ⟨priority, isAged⟩ := scheduler.exists_afterSlice_eq old
    exact ⟨old, isOld, by rw [isAged], by rw [isAged]⟩
  next => exact ⟨job, present, rfl, rfl⟩

theorem closeTick {work : Work} (nodup : machine.ready.ids.Nodup)
    (closes : scheduler.closeTick work machine = .ok next) : next.Told scheduler log := by
  rcases Scheduler.closeTick_ok closes with ⟨rfl, _⟩ | ⟨_, ends⟩ | ⟨_, _, _, slices, _, ends⟩
  · exact told
  · exact told.endSlice nodup ends
  · have sliced : ∀ id, (Event.sliceExpired id).OccursUnder scheduler.policy := by
      intro id
      cases scheduler with
      | roundRobin => exact .inl rfl
      | agingRoundRobin => exact .inr rfl
      | _ => cases slices
    have marked : machine.markExpired.Told scheduler log :=
      told.of_same told.courses rfl rfl rfl fun _ => sliced
    exact marked.endSlice nodup ends

end Told

end Machine

end CpuScheduling
