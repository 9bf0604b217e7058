import CpuScheduling.Proofs.Kernel.Effects

/-!
The ranks in a queue are those that the waiting jobs have now.  So the job that is
picked is the first of all that wait, and not only the first by what they were when they
were queued.
-/

namespace CpuScheduling

namespace Machine

/-- The queue is a heap, and every job in it has the rank that it is queued under. -/
def FreshRanks (scheduler : Scheduler) (machine : Machine) : Prop :=
  ∃ heap, machine.ready = .ranked heap ∧ ∀ entry ∈ heap.entries,
    ∃ job, machine.job? entry.id = some job ∧ entry.rank = scheduler.rank job

namespace FreshRanks

variable {scheduler : Scheduler} {machine next : Machine} {id : Nat} {old job : Job}

theorem put (fresh : machine.FreshRanks scheduler) (present : machine.job? id = some old)
    (absent : id ∉ machine.ready.ids) (job : Job) : (machine.put id job).FreshRanks scheduler := by
  obtain ⟨heap, isHeap, ranks⟩ := fresh
  refine ⟨heap, isHeap, fun entry member => ?_⟩
  obtain ⟨queued, isQueued, rank⟩ := ranks entry member
  have different : entry.id ≠ id := by
    rintro rfl
    rw [isHeap] at absent
    exact absent (RankedHeap.mem_ids member)
  exact ⟨queued, by rw [Machine.job?_put present, if_neg different, isQueued], rank⟩

theorem push {ready : ReadyQueue} (fresh : machine.FreshRanks scheduler)
    (present : machine.job? id = some job)
    (entered : machine.ready.push id (scheduler.rank job) = .ok ready) :
    FreshRanks scheduler { machine with ready := ready } := by
  obtain ⟨heap, isHeap, ranks⟩ := fresh
  rw [isHeap] at entered
  obtain ⟨_, _, inserted⟩ := bind_eq_ok_iff.mp entered
  cases inserted
  refine ⟨_, rfl, fun entry member => ?_⟩
  rcases RankedHeap.mem_insert.mp member with before | rfl
  · exact ranks entry before
  · exact ⟨job, present, rfl⟩

theorem pop (fresh : machine.FreshRanks scheduler) : machine.pop.2.FreshRanks scheduler := by
  obtain ⟨heap, isHeap, ranks⟩ := fresh
  refine ⟨heap.tail, ?_, fun entry member => ranks entry (RankedHeap.mem_of_mem_tail member)⟩
  simp [Machine.pop, ReadyQueue.pop, ReadyQueue.tail, isHeap]

theorem not_rank_lt {other : Nat} {waiting : Job} (fresh : machine.FreshRanks scheduler)
    (picked : machine.ready.peek = some id) (present : machine.job? id = some job)
    (waits : other ∈ machine.ready.ids) (isWaiting : machine.job? other = some waiting) :
    ¬scheduler.rank job < scheduler.rank waiting := by
  obtain ⟨heap, isHeap, ranks⟩ := fresh
  rw [isHeap] at picked waits
  obtain ⟨first, firstMember, named, greatest⟩ := RankedHeap.first?_rank picked
  obtain ⟨entry, member, rfl⟩ := RankedHeap.exists_entry waits
  obtain ⟨firstJob, isFirst, firstRank⟩ := ranks first firstMember
  obtain ⟨entryJob, isEntry, entryRank⟩ := ranks entry member
  rw [named, present, Option.some.injEq] at isFirst
  rw [isWaiting, Option.some.injEq] at isEntry
  rw [isFirst, isEntry, ← firstRank, ← entryRank]
  exact greatest entry member

theorem fillCpu (fresh : machine.FreshRanks scheduler)
    (fills : scheduler.fillCpu machine = .ok next) : next.FreshRanks scheduler := by
  rcases Scheduler.fillCpu_ok fills with
    ⟨_, rfl⟩ | ⟨id, job, started, _, absent, present, _, rfl⟩
  · exact fresh
  · exact fresh.pop.put present absent started

theorem release {event : Event} {ready : ReadyQueue} (fresh : machine.FreshRanks scheduler)
    (present : machine.job? id = some job) (absent : id ∉ machine.ready.ids)
    (entered : machine.ready.push id (scheduler.rank job) = .ok ready) :
    FreshRanks scheduler { machine.released id job event with ready := ready } := by
  have left : (machine.released id job event).FreshRanks scheduler :=
    fresh.put present absent { job with phase := .ready }
  have released : (machine.released id job event).job? id = some { job with phase := .ready } :=
    Machine.job?_put_self present _
  exact left.push released (by rw [Scheduler.rank_phase]; exact entered)

theorem contest (fresh : machine.FreshRanks scheduler) (current : machine.cpu.current = some id)
    (contests : scheduler.contest machine id = .ok next) : next.FreshRanks scheduler := by
  rcases Scheduler.contest_ok current contests with
    ⟨_, rfl⟩ | ⟨job, candidateId, candidate, _, present, _, rest⟩
  · exact fresh
  · rcases rest with ⟨_, rfl⟩ | ⟨_, ready, started, waiting, absent, entered, notQueued,
      isWaiting, _, rfl⟩
    · exact fresh
    · have left : FreshRanks scheduler { machine.pop.2.released id job
          (.preempt id candidateId) with ready := ready } :=
        fresh.pop.release present absent entered
      exact left.put isWaiting notQueued started

theorem dispatch (fresh : machine.FreshRanks scheduler)
    (dispatches : scheduler.dispatch machine = .ok next) : next.FreshRanks scheduler := by
  rcases Scheduler.dispatch_ok dispatches with ⟨_, fills⟩ | ⟨id, current, rfl | contests⟩
  · exact fresh.fillCpu fills
  · exact fresh
  · exact fresh.contest current contests

theorem requeueExpired (fresh : machine.FreshRanks scheduler)
    (requeues : scheduler.requeueExpired machine = .ok next) : next.FreshRanks scheduler := by
  rcases Scheduler.requeueExpired_ok requeues with
    ⟨_, rfl⟩ | ⟨id, job, ready, _, _, present, absent, entered, rfl⟩
  · exact fresh
  · exact fresh.release present absent entered

theorem age {step : Nat} (fresh : machine.FreshRanks scheduler) (nodup : machine.ready.ids.Nodup)
    (ages : scheduler.age step machine id = .ok next) : next.FreshRanks scheduler := by
  obtain ⟨job, present, rfl⟩ := Scheduler.age_ok ages
  obtain ⟨heap, isHeap, ranks⟩ := fresh
  have aged : (machine.put id (job.aged step)).job? id = some (job.aged step) :=
    Machine.job?_put_self present _
  rw [isHeap] at nodup ⊢
  simp only [ReadyQueue.rerank]
  cases found : heap.place? id with
  | none =>
      have absent : id ∉ machine.ready.ids := by
        rw [isHeap]
        intro queued
        have isPlaced := RankedHeap.isSome_place?_iff.mpr (heap.ids_perm.mem_iff.mp queued)
        simp [found] at isPlaced
      obtain ⟨same, isSame, stillRanks⟩ := FreshRanks.put ⟨heap, isHeap, ranks⟩ present absent
        (job.aged step)
      cases isHeap.symm.trans isSame
      exact ⟨heap, rfl, stillRanks⟩
  | some place =>
      refine ⟨_, rfl, fun entry member => ?_⟩
      rcases (RankedHeap.mem_replace nodup found).mp member with rfl | ⟨before, different⟩
      · exact ⟨job.aged step, aged, rfl⟩
      · obtain ⟨queued, isQueued, rank⟩ := ranks entry before
        refine ⟨queued, ?_, rank⟩
        change (machine.put id (job.aged step)).job? entry.id = some queued
        rw [Machine.job?_put present, if_neg different, isQueued]

theorem ageAll {step : Nat} {aging : List Nat} (fresh : machine.FreshRanks scheduler)
    (nodup : machine.ready.ids.Nodup)
    (ages : aging.foldlM (scheduler.age step) machine = .ok next) : next.FreshRanks scheduler := by
  induction aging generalizing machine with
  | nil =>
      cases ages
      exact fresh
  | cons id rest inductionHypothesis =>
      rw [List.foldlM_cons, bind_eq_ok_iff] at ages
      obtain ⟨aged, first, others⟩ := ages
      have stillFresh := fresh.age nodup first
      obtain ⟨job, _, rfl⟩ := Scheduler.age_ok first
      exact inductionHypothesis stillFresh
        ((ReadyQueue.ids_rerank_perm machine.ready id _).nodup_iff.mpr nodup) others

theorem endSlice (fresh : machine.FreshRanks scheduler) (nodup : machine.ready.ids.Nodup)
    (ends : scheduler.endSlice machine = .ok next) : next.FreshRanks scheduler := by
  cases scheduler with
  | agingRoundRobin quantum step =>
      by_cases noStep : step = 0
      · simp only [Scheduler.endSlice, noStep, ↓reduceIte] at ends
        cases ends
        exact noStep ▸ fresh
      · simp only [Scheduler.endSlice, noStep, ↓reduceIte] at ends
        exact fresh.ageAll nodup ends
  | _ =>
      cases ends
      exact fresh

theorem closeTick {work : Work} (fresh : machine.FreshRanks scheduler)
    (nodup : machine.ready.ids.Nodup) (closes : scheduler.closeTick work machine = .ok next) :
    next.FreshRanks scheduler := by
  rcases Scheduler.closeTick_ok closes with ⟨rfl, _⟩ | ⟨_, ends⟩ | ⟨_, _, _, _, _, ends⟩
  · exact fresh
  · exact fresh.endSlice nodup ends
  · have marked : machine.markExpired.FreshRanks scheduler := fresh
    exact marked.endSlice nodup ends

end FreshRanks

theorem FreshRanks.work {scheduler : Scheduler} {workload : List Spec} {machine next : Machine}
    {clock : Nat} {work : Work} (fresh : machine.FreshRanks scheduler)
    (orderly : machine.Orderly workload clock [])
    (works : machine.recordTrace.runCurrent = .ok (work, next)) : next.FreshRanks scheduler := by
  rcases Machine.work_ok works with ⟨_, _, rfl⟩ | ⟨id, job, current, present, rest⟩
  · exact fresh
  · have absent := orderly.current_absent current
    rcases rest with ⟨_, _, _, rfl⟩ | ⟨_, _, completed, _, rfl⟩
    · exact fresh.put present absent _
    · exact fresh.put present absent completed

theorem ofWorkload_freshRanks (workload : List Spec) (fixesWaiting : Bool)
    (scheduler : Scheduler) :
    (ofWorkload workload .emptyRanked fixesWaiting).FreshRanks scheduler :=
  ⟨.empty, rfl, by simp [RankedHeap.empty]⟩

end Machine

namespace Kernel

variable {workload : List Spec} {kernel next : Kernel} {scheduler : Scheduler}

theorem wake_freshRanks {id : Nat} (fresh : kernel.machine.FreshRanks kernel.scheduler)
    (wakes : kernel.wake id = .ok next) : next.machine.FreshRanks kernel.scheduler := by
  obtain ⟨job, ready, present, _, absent, entered, rfl⟩ := wake_ok wakes
  have readied : ((kernel.machine.put id { job with phase := .ready }).emit (.arrival id)).job? id =
      some { job with phase := .ready } := Machine.job?_put_self present _
  have left : ((kernel.machine.put id { job with phase := .ready }).emit (.arrival id)).FreshRanks
      kernel.scheduler := fresh.put present absent _
  exact left.push readied (by rw [Scheduler.rank_phase]; exact entered)

/-- Ranks stay fresh in every phase of a tick. -/
theorem Phases.freshRanks {requeued started worked closed : Machine} {work : Work}
    (phases : Phases workload kernel requeued started work worked closed)
    (fresh : kernel.machine.FreshRanks kernel.scheduler) :
    requeued.FreshRanks kernel.scheduler ∧ started.FreshRanks kernel.scheduler ∧
      (kernel.afterTick closed).machine.FreshRanks kernel.scheduler := by
  have requeued := fresh.requeueExpired phases.requeues
  have started := requeued.dispatch phases.dispatches
  have worked := started.work phases.startedOrder phases.works
  have closed := worked.closeTick phases.workedOrder.placement.nodup phases.closes
  exact ⟨requeued, started, closed⟩

end Kernel

end CpuScheduling
