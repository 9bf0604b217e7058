import CpuScheduling.Proofs.Machine.Effects
import CpuScheduling.Proofs.Queue.Heap
import CpuScheduling.Proofs.Scheduler.Order

/-!
What the operations of a scheduler do when they succeed: for each one, the machine that
it leaves behind.
-/

namespace CpuScheduling

def Job.aged (job : Job) (step : Nat) : Job :=
  { job with effectivePriority := min (job.effectivePriority + step) (prioritySize - 1) }

namespace Scheduler

variable {machine next : Machine} {id : Nat} {scheduler : Scheduler}

theorem policy_of_ofPolicy {policy : Policy} {config : Config}
    (decides : ofPolicy policy config = .ok scheduler) :
    scheduler.policy = policy := by
  cases policy with
  | roundRobin | agingRoundRobin =>
      obtain ⟨_, _, rfl⟩ := map_eq_ok_iff.mp decides
      rfl
  | _ =>
      cases decides
      rfl

theorem eq_of_ofPolicy_aging {config : Config}
    (decides : ofPolicy .agingRoundRobin config = .ok scheduler) :
    ∃ quantum, config.requiredQuantum = .ok quantum ∧
      scheduler = agingRoundRobin quantum config.agingStep := by
  obtain ⟨quantum, required, isScheduler⟩ := map_eq_ok_iff.mp decides
  exact ⟨quantum, required, isScheduler.symm⟩

@[simp]
theorem rank_phase (scheduler : Scheduler) (job : Job) (phase : Phase) :
    scheduler.rank { job with phase := phase } = scheduler.rank job := by
  cases scheduler <;> rfl

theorem enqueue_ok (enters : scheduler.enqueue machine id = .ok next) :
    ∃ job ready, machine.job? id = some job ∧ job.phase = .ready ∧ id ∉ machine.ready.ids ∧
      machine.ready.push id (scheduler.rank job) = .ok ready ∧
      next = { machine with ready := ready } := by
  simp only [enqueue, bind_eq_ok_iff, Machine.job_eq_ok_iff] at enters
  obtain ⟨job, present, enters⟩ := enters
  obtain ⟨same, ready, isSame, isReady, absent, entered, isNext⟩ := Machine.enqueue_ok enters
  cases present.symm.trans isSame
  exact ⟨job, ready, present, isReady, absent, entered, isNext⟩

def restored (scheduler : Scheduler) (job : Job) : Job :=
  match scheduler with
  | agingRoundRobin _ _ => { job with effectivePriority := job.priority }
  | _ => job

def afterSlice (scheduler : Scheduler) (job : Job) : Job :=
  match scheduler with
  | agingRoundRobin _ step => if step = 0 then job else job.aged step
  | _ => job

theorem exists_afterSlice_eq (scheduler : Scheduler) (job : Job) :
    ∃ priority, scheduler.afterSlice job = { job with effectivePriority := priority } := by
  cases scheduler with
  | agingRoundRobin quantum step =>
      simp only [afterSlice]
      split
      next => exact ⟨job.effectivePriority, rfl⟩
      next => exact ⟨(job.aged step).effectivePriority, rfl⟩
  | _ => exact ⟨job.effectivePriority, rfl⟩

theorem restorePriority_eq {job : Job} (present : machine.job? id = some job) :
    scheduler.restorePriority machine id = .ok (machine.put id (scheduler.restored job)) := by
  cases scheduler with
  | agingRoundRobin quantum step =>
      simp [restorePriority, restored, Machine.job_of_job? present, bind, Except.bind, pure,
        Except.pure]
  | _ => simp [restorePriority, restored, Machine.put_self present]

theorem exists_job?_of_restorePriority {restored : Machine}
    (restores : scheduler.restorePriority machine id = .ok restored) {job : Job}
    (present : restored.job? id = some job) : ∃ old, machine.job? id = some old := by
  cases scheduler with
  | agingRoundRobin quantum step =>
      obtain ⟨old, isOld, _⟩ := bind_eq_ok_iff.mp restores
      exact ⟨old, Machine.job_eq_ok_iff.mp isOld⟩
  | _ =>
      cases restores
      exact ⟨job, present⟩

theorem fillCpu_ok (fills : scheduler.fillCpu machine = .ok next) :
    (machine.ready.peek = none ∧ next = machine) ∨
      ∃ id job started, machine.ready.peek = some id ∧
        id ∉ machine.ready.tail.ids ∧ machine.job? id = some job ∧
        Machine.startBooks machine.fixesWaiting machine.now (scheduler.restored job) =
          .ok started ∧
        next = machine.pop.2.given id started := by
  cases picked : machine.ready.peek with
  | none =>
      have empty := ReadyQueue.peek_eq_none_iff.mp picked
      simp only [fillCpu, Machine.pop, ReadyQueue.pop, picked,
        ReadyQueue.tail_of_ids_eq_nil empty] at fills
      cases fills
      exact .inl ⟨rfl, rfl⟩
  | some id =>
      have isPop : machine.pop = (some id, machine.pop.2) := by
        simp [Machine.pop, ReadyQueue.pop, picked]
      rw [fillCpu, isPop] at fills
      obtain ⟨restored, restores, starts⟩ := bind_eq_ok_iff.mp fills
      obtain ⟨restoredJob, started, _, absent, restoredPresent, booked, isNext⟩ :=
        Machine.start_ok starts
      obtain ⟨job, present⟩ := exists_job?_of_restorePriority restores restoredPresent
      cases (restorePriority_eq present).symm.trans restores
      rw [Machine.job?_put_self present, Option.some.injEq] at restoredPresent
      subst restoredPresent
      refine .inr ⟨id, job, started, rfl, absent, present, booked, ?_⟩
      rw [isNext]
      simp only [Machine.given, Machine.put_put]
      rfl

theorem requeueExpired_ok (requeues : scheduler.requeueExpired machine = .ok next) :
    ((machine.cpu.current = none ∨ machine.cpu.sliceExpired = false) ∧ next = machine) ∨
      ∃ id job ready, machine.cpu.current = some id ∧ machine.cpu.sliceExpired = true ∧
        machine.job? id = some job ∧ id ∉ machine.ready.ids ∧
        machine.ready.push id (scheduler.rank job) = .ok ready ∧
        next = { machine.released id job (.sliceExpired id) with ready := ready } := by
  obtain ⟨⟨expired, left⟩, expires, rest⟩ := bind_eq_ok_iff.mp requeues
  rcases Machine.expireSlice_ok expires with
    ⟨stays, rfl, rfl⟩ | ⟨id, job, current, used, rfl, present, rfl⟩
  · cases rest
    exact .inl ⟨stays, rfl⟩
  · obtain ⟨readied, ready, readiedPresent, _, absent, entered, isNext⟩ := enqueue_ok rest
    have isReadied : readied = { job with phase := .ready } :=
      Option.some.inj (readiedPresent.symm.trans (Machine.job?_put_self present _))
    rw [isReadied, rank_phase] at entered
    exact .inr ⟨id, job, ready, current, used, present, absent, entered, isNext⟩

/-- The candidate in front waits on, or it takes the CPU from its occupant. -/
theorem contest_ok (current : machine.cpu.current = some id)
    (contests : scheduler.contest machine id = .ok next) :
    (machine.ready.peek = none ∧ next = machine) ∨
      ∃ job candidateId candidate, machine.ready.peek = some candidateId ∧
        machine.job? id = some job ∧ machine.job? candidateId = some candidate ∧
        ((scheduler.displaces candidate job = false ∧ next = machine) ∨
          (scheduler.displaces candidate job = true ∧ ∃ ready started waiting,
            id ∉ machine.ready.tail.ids ∧
            machine.ready.tail.push id (scheduler.rank job) = .ok ready ∧
            candidateId ∉ ready.ids ∧
            { machine.pop.2.released id job (.preempt id candidateId) with
              ready := ready }.job? candidateId = some waiting ∧
            Machine.startBooks machine.fixesWaiting machine.now waiting = .ok started ∧
            next = { machine.pop.2.released id job (.preempt id candidateId) with
              ready := ready }.given candidateId started)) := by
  unfold contest at contests
  cases picked : machine.ready.peek with
  | none =>
      rw [picked] at contests
      cases contests
      exact .inl ⟨rfl, rfl⟩
  | some candidateId =>
      simp only [picked, bind_eq_ok_iff, Machine.job_eq_ok_iff] at contests
      obtain ⟨job, present, candidate, isCandidate, rest⟩ := contests
      refine .inr ⟨job, candidateId, candidate, rfl, present, isCandidate, ?_⟩
      cases wins : scheduler.displaces candidate job with
      | false =>
          simp only [wins, Bool.false_eq_true, ↓reduceIte] at rest
          cases rest
          exact .inl ⟨rfl, rfl⟩
      | true =>
          simp only [wins, ↓reduceIte, bind_eq_ok_iff] at rest
          obtain ⟨⟨displaced, left⟩, preempts, rest⟩ := rest
          have busy : machine.pop.2.cpu.current = some id := current
          rcases Machine.preempt_ok preempts with
            ⟨idle, _, _⟩ | ⟨other, old, isOther, rfl, isOld, rfl⟩
          · simp [busy] at idle
          · obtain ⟨queued, enters, starts⟩ := bind_eq_ok_iff.mp rest
            cases busy.symm.trans isOther
            have same : machine.job? id = some old := isOld
            cases present.symm.trans same
            obtain ⟨readied, ready, readiedPresent, _, absent, entered, rfl⟩ := enqueue_ok enters
            have isReadied : readied = { job with phase := .ready } :=
              Option.some.inj (readiedPresent.symm.trans (Machine.job?_put_self isOld _))
            rw [isReadied, rank_phase] at entered
            obtain ⟨waiting, started, _, notQueued, isWaiting, booked, isNext⟩ :=
              Machine.start_ok starts
            exact .inr ⟨rfl, ready, started, waiting, absent, entered, notQueued, isWaiting, booked,
              isNext⟩

/-- An idle CPU is filled; a busy one may be contested, but the policies that do not
preempt leave it alone. -/
theorem dispatch_ok (dispatches : scheduler.dispatch machine = .ok next) :
    (machine.cpu.current = none ∧ scheduler.fillCpu machine = .ok next) ∨
      ∃ id, machine.cpu.current = some id ∧
        (next = machine ∨ scheduler.contest machine id = .ok next) := by
  unfold dispatch at dispatches
  cases current : machine.cpu.current with
  | none =>
      rw [current] at dispatches
      exact .inl ⟨rfl, dispatches⟩
  | some id =>
      rw [current] at dispatches
      refine .inr ⟨id, rfl, ?_⟩
      cases scheduler with
      | srtf | preemptivePriority => exact .inr dispatches
      | _ =>
          cases dispatches
          exact .inl rfl

theorem requeueExpired_same (requeues : scheduler.requeueExpired machine = .ok next) :
    next.now = machine.now ∧ next.trace = machine.trace := by
  rcases requeueExpired_ok requeues with ⟨_, rfl⟩ | ⟨_, _, _, _, _, _, _, _, rfl⟩
  · exact ⟨rfl, rfl⟩
  · exact ⟨rfl, rfl⟩

theorem dispatch_same (dispatches : scheduler.dispatch machine = .ok next) :
    next.now = machine.now ∧ next.trace = machine.trace := by
  rcases dispatch_ok dispatches with ⟨_, fills⟩ | ⟨id, current, rfl | contests⟩
  · rcases fillCpu_ok fills with ⟨_, rfl⟩ | ⟨_, _, _, _, _, _, _, rfl⟩
    · exact ⟨rfl, rfl⟩
    · exact ⟨rfl, rfl⟩
  · exact ⟨rfl, rfl⟩
  · rcases contest_ok current contests with ⟨_, rfl⟩ | ⟨_, _, _, _, _, _, ⟨_, rfl⟩ | ⟨_, rest⟩⟩
    · exact ⟨rfl, rfl⟩
    · exact ⟨rfl, rfl⟩
    · obtain ⟨_, _, _, _, _, _, _, _, rfl⟩ := rest
      exact ⟨rfl, rfl⟩

section Events

theorem fillCpu_events (fills : scheduler.fillCpu machine = .ok next) :
    machine.events <+: next.events := by
  rcases fillCpu_ok fills with ⟨_, rfl⟩ | ⟨id, _, started, _, _, _, _, rfl⟩
  · exact List.prefix_rfl
  · exact List.prefix_append machine.events _

theorem contest_events (current : machine.cpu.current = some id)
    (contests : scheduler.contest machine id = .ok next) : machine.events <+: next.events := by
  rcases contest_ok current contests with ⟨_, rfl⟩ | ⟨job, candidateId, _, _, _, _, rest⟩
  · exact List.prefix_rfl
  · rcases rest with ⟨_, rfl⟩ | ⟨_, ready, started, _, _, _, _, _, _, rfl⟩
    · exact List.prefix_rfl
    · exact (List.prefix_append machine.events _).trans (List.prefix_append _ _)

theorem dispatch_events (dispatches : scheduler.dispatch machine = .ok next) :
    machine.events <+: next.events := by
  rcases dispatch_ok dispatches with ⟨_, fills⟩ | ⟨id, current, rfl | contests⟩
  · exact fillCpu_events fills
  · exact List.prefix_rfl
  · exact contest_events current contests

theorem requeueExpired_events (requeues : scheduler.requeueExpired machine = .ok next) :
    machine.events <+: next.events := by
  rcases requeueExpired_ok requeues with ⟨_, rfl⟩ | ⟨id, job, ready, _, _, _, _, _, rfl⟩
  · exact List.prefix_rfl
  · exact List.prefix_append machine.events _

end Events

theorem age_ok {step : Nat} (ages : scheduler.age step machine id = .ok next) :
    ∃ job, machine.job? id = some job ∧
      next =
        { machine.put id (job.aged step) with
          ready := (machine.ready.rerank id (scheduler.rank (job.aged step))).2 } := by
  simp only [age, bind_eq_ok_iff, Machine.job_eq_ok_iff] at ages
  obtain ⟨job, present, isNext⟩ := ages
  cases isNext
  exact ⟨job, present, rfl⟩

theorem ageAll_same {step : Nat} {aging : List Nat}
    (ages : aging.foldlM (scheduler.age step) machine = .ok next) :
    ∃ jobs ready, next = { machine with jobs := jobs, ready := ready } := by
  induction aging generalizing machine with
  | nil =>
      cases ages
      exact ⟨_, _, rfl⟩
  | cons id rest inductionHypothesis =>
      rw [List.foldlM_cons, bind_eq_ok_iff] at ages
      obtain ⟨aged, first, others⟩ := ages
      obtain ⟨job, _, rfl⟩ := age_ok first
      obtain ⟨jobs, ready, isNext⟩ := inductionHypothesis others
      exact ⟨jobs, ready, isNext⟩

/-- All that age gain the same, and nothing but their order changes in the queue. -/
theorem ageAll_ok {step : Nat} {aging : List Nat} (nodup : aging.Nodup)
    (ages : aging.foldlM (scheduler.age step) machine = .ok next) :
    next.ready.ids.Perm machine.ready.ids ∧
      ∀ other, next.job? other =
        if other ∈ aging then (machine.job? other).map (·.aged step) else machine.job? other := by
  induction aging generalizing machine with
  | nil =>
      cases ages
      exact ⟨.refl _, by simp⟩
  | cons id rest inductionHypothesis =>
      obtain ⟨fresh, nodupRest⟩ := List.nodup_cons.mp nodup
      rw [List.foldlM_cons, bind_eq_ok_iff] at ages
      obtain ⟨aged, first, others⟩ := ages
      obtain ⟨job, present, rfl⟩ := age_ok first
      obtain ⟨places, agedJobs⟩ := inductionHypothesis nodupRest others
      refine ⟨places.trans (ReadyQueue.ids_rerank_perm ..), fun other => ?_⟩
      have put : { machine.put id (job.aged step) with
          ready := (machine.ready.rerank id (scheduler.rank (job.aged step))).2 }.job? other =
          if other = id then some (job.aged step) else machine.job? other :=
        Machine.job?_put present _ other
      rw [agedJobs, put]
      by_cases here : other = id
      · subst here
        simp [fresh, present]
      · simp [here]

theorem endSlice_same (ends : scheduler.endSlice machine = .ok next) :
    ∃ jobs ready, next = { machine with jobs := jobs, ready := ready } := by
  cases scheduler with
  | agingRoundRobin quantum step =>
      simp only [endSlice] at ends
      split at ends
      next =>
        cases ends
        exact ⟨_, _, rfl⟩
      next => exact ageAll_same ends
  | _ =>
      cases ends
      exact ⟨_, _, rfl⟩

theorem endSlice_ok (nodup : machine.ready.ids.Nodup)
    (ends : scheduler.endSlice machine = .ok next) :
    (∃ jobs ready, next = { machine with jobs := jobs, ready := ready }) ∧
      next.ready.ids.Perm machine.ready.ids ∧
      ∀ other, next.job? other =
        if other ∈ machine.ready.ids then (machine.job? other).map scheduler.afterSlice
        else machine.job? other := by
  have unchanged (same : ∀ job, scheduler.afterSlice job = job) :
      machine.ready.ids.Perm machine.ready.ids ∧
        ∀ other, machine.job? other =
          if other ∈ machine.ready.ids then (machine.job? other).map scheduler.afterSlice
          else machine.job? other := by
    refine ⟨.refl _, fun other => ?_⟩
    cases machine.job? other <;> simp [same]
  refine ⟨endSlice_same ends, ?_⟩
  cases scheduler with
  | agingRoundRobin quantum step =>
      by_cases noStep : step = 0
      · simp only [endSlice, noStep, ↓reduceIte] at ends
        cases ends
        exact unchanged fun job => if_pos noStep
      · simp only [endSlice, noStep, ↓reduceIte] at ends
        have gains : (agingRoundRobin quantum step).afterSlice = (·.aged step) := by
          funext job
          exact if_neg noStep
        rw [gains]
        exact ageAll_ok nodup ends
  | _ =>
      cases ends
      exact unchanged fun _ => rfl

/-- A slice ends with the job or with the quantum. -/
theorem closeTick_ok {work : Work} (closes : scheduler.closeTick work machine = .ok next) :
    (next = machine ∧ (work = .idle ∨ ∃ id, work = .ran id ∧
        ∀ quantum, scheduler.quantum? = some quantum → machine.cpu.sliceUsed < quantum)) ∨
      ((∃ id, work = .completed id) ∧ scheduler.endSlice machine = .ok next) ∨
      ∃ id quantum, work = .ran id ∧ scheduler.quantum? = some quantum ∧
        quantum ≤ machine.cpu.sliceUsed ∧ scheduler.endSlice machine.markExpired = .ok next := by
  cases work with
  | idle =>
      cases closes
      exact .inl ⟨rfl, .inl rfl⟩
  | completed id => exact .inr (.inl ⟨⟨id, rfl⟩, closes⟩)
  | ran id =>
      cases slices : scheduler.quantum? with
      | none =>
          simp only [closeTick, slices] at closes
          cases closes
          exact .inl ⟨rfl, .inr ⟨id, rfl, by simp⟩⟩
      | some quantum =>
          simp only [closeTick, slices] at closes
          split at closes
          next usedUp => exact .inr (.inr ⟨id, quantum, rfl, rfl, usedUp, closes⟩)
          next left =>
            cases closes
            refine .inl ⟨rfl, .inr ⟨id, rfl, ?_⟩⟩
            intro other isOther
            cases isOther
            omega

theorem closeTick_same {work : Work} (closes : scheduler.closeTick work machine = .ok next) :
    ∃ jobs ready expired, next = { machine with
      jobs := jobs, ready := ready, cpu := { machine.cpu with sliceExpired := expired } } := by
  rcases closeTick_ok closes with ⟨rfl, _⟩ | ⟨_, ends⟩ | ⟨_, _, _, _, _, ends⟩
  · exact ⟨_, _, _, rfl⟩
  · obtain ⟨jobs, ready, rfl⟩ := endSlice_same ends
    exact ⟨jobs, ready, _, rfl⟩
  · obtain ⟨jobs, ready, rfl⟩ := endSlice_same ends
    exact ⟨jobs, ready, true, rfl⟩

end Scheduler

end CpuScheduling
