import CpuScheduling.Proofs.Simulation.SameOutcome

/-!
Jobs that a ranked queue cannot tell apart by what it goes by.  Arrival and id decide then,
and these are the order of admission: whoever comes stands behind all that are there, and
the holder, whom work only moves ahead, in front of them.
-/

namespace CpuScheduling

variable {scheduler : Scheduler}

theorem Scheduler.precedes_of_earlier {early late : Task} (ranked : scheduler.isRanked = true)
    (atLeast : scheduler.criterion late ≤ scheduler.criterion early)
    (earlier : early.arrival < late.arrival ∨ early.arrival = late.arrival ∧ early.id < late.id) :
    scheduler.precedes early late = true ∧ scheduler.precedes late early = false := by
  rw [Bool.eq_false_iff, ne_eq, precedes_iff ranked, precedes_iff ranked]
  omega

structure Task.Ranks (scheduler : Scheduler) (least : Int) (task : Task) : Prop where
  unaged : task.Unaged
  atLeast : least ≤ scheduler.criterion task

theorem Task.ranks_lasting (steady : scheduler.isSteady = true) (least : Int) :
    Task.Lasting scheduler (Task.Ranks scheduler least) where
  picked _ ranks := (ranks.unaged.picked_eq scheduler).symm ▸ ranks
  waited task ranks := (task.waited_of_isSteady steady).symm ▸ ranks
  worked task ranks _ := ⟨ranks.unaged, ranks.atLeast.trans (scheduler.criterion_le_worked task)⟩

theorem Task.arrival_lasting (scheduler : Scheduler) (time : Nat) :
    Task.Lasting scheduler (·.arrival < time) where
  picked task arrived := by cases scheduler <;> exact arrived
  waited task arrived := by
    cases scheduler with
    | agingRoundRobin quantum step =>
        simp only [Task.waited]
        split <;> exact arrived
    | _ => exact arrived
  worked _ arrived _ := arrived

namespace Lineup

variable {come : Nat → List Task}

theorem arrived_before (scheduler : Scheduler)
    (arrival : ∀ time, ∀ task ∈ come time, task.arrival = time) (time : Nat) :
    (before scheduler come time).Every (·.arrival < time) := by
  induction time with
  | zero => exact ⟨by simp [before], by simp [before]⟩
  | succ time inductionHypothesis =>
      have arrived := inductionHypothesis.imp fun task (early : task.arrival < time) =>
        show task.arrival < time + 1 by omega
      have lasting := Task.arrival_lasting scheduler (time + 1)
      have newcomers : ∀ task ∈ come time, task.arrival < time + 1 := fun task comes => by
        rw [arrival time task comes]
        omega
      exact ((arrived.gather newcomers).dispatch lasting).work lasting

section Uniform

variable {key : Int} (ranked : scheduler.isRanked = true) (steady : scheduler.isSteady = true)
  (unaged : ∀ time, ∀ task ∈ come time, task.Unaged)
  (arrival : ∀ time, ∀ task ∈ come time, task.arrival = time)
  (uniform : ∀ time, ∀ task ∈ come time, scheduler.criterion task = key)

include ranked steady unaged arrival uniform

theorem precedes_newcomer (time : Nat) :
    (before scheduler come time).Every fun present => ∀ task ∈ come time,
      scheduler.precedes present task = true ∧ scheduler.precedes task present = false := by
  have newcomers : ∀ time, ∀ task ∈ come time, task.Ranks scheduler key := fun time task comes =>
    ⟨unaged time task comes, (uniform time task comes).ge⟩
  have ranks := Every.before (Task.ranks_lasting steady key) newcomers time
  have arrived := arrived_before scheduler arrival time
  have behind {present : Task} (ranks : present.Ranks scheduler key)
      (arrived : present.arrival < time) : ∀ task ∈ come time,
        scheduler.precedes present task = true ∧ scheduler.precedes task present = false := by
    intro task comes
    refine Scheduler.precedes_of_earlier ranked ?_ (.inl ?_)
    · exact (uniform time task comes).le.trans ranks.atLeast
    · exact arrived.trans_eq (arrival time task comes).symm
  exact ⟨fun tenure isHolder => behind (ranks.holder tenure isHolder) (arrived.holder tenure isHolder),
    fun task waits => behind (ranks.waiting task waits) (arrived.waiting task waits)⟩

/-- Where a ranked queue goes by what is the same for all that come, nobody is disturbed. -/
theorem undisturbed_of_uniform (order : ∀ time, (come time).Pairwise (·.id < ·.id)) (time : Nat) :
    (before scheduler come time).Undisturbed scheduler .fcfs (come time) := by
  have present (time : Nat) := precedes_newcomer ranked steady unaged arrival uniform time
  have behind (time : Nat) (led : (before scheduler come time).Led scheduler) :
      ((come time).foldl (join scheduler) (before scheduler come time)).Led scheduler := by
    intro tenure isHolder task waits
    rw [holder_joinAll] at isHolder
    rcases mem_waiting_joinAll.mp waits with comes | waited
    · exact ((present time).holder tenure isHolder task comes).1
    · exact led tenure isHolder task waited
  have led := led_before ranked steady unaged behind time
  refine (behind time led).undisturbed (Every.before (Task.unaged_lasting steady) unaged time) ?_
  refine joinAll_congr (fun task comes other waits => ?_) ((order time).imp_of_mem ?_)
  · exact ((present time).waiting other waits task comes).2
  · intro early late isEarly isLate lower
    have sameArrival := (arrival time early isEarly).trans (arrival time late isLate).symm
    have sameKey := (uniform time late isLate).trans (uniform time early isEarly).symm
    exact (Scheduler.precedes_of_earlier ranked sameKey.le (.inr ⟨sameArrival, lower⟩)).2

end Uniform

end Lineup

variable {workload : List Spec} {config : Config} {policy : Policy}

theorem arrival_tasksAt (workload : List Spec) (time : Nat) :
    ∀ task ∈ tasksAt workload time, task.arrival = time := by
  intro task isTask
  obtain ⟨job, _, arrives, rfl⟩ := mem_tasksAt.mp isTask
  exact arrives

theorem order_tasksAt (workload : List Spec) (time : Nat) :
    (tasksAt workload time).Pairwise (·.id < ·.id) := by
  have submitted : (Job.ofWorkload workload).Pairwise (·.id < ·.id) := by
    refine List.pairwise_map.mp ?_
    rw [Job.map_id_ofWorkload]
    exact List.pairwise_lt_range'
  exact List.pairwise_map.mpr (submitted.filter _)

theorem sameOutcome_of_uniform {key : Int} (valid : validate workload = .ok ())
    (decides : Scheduler.ofPolicy policy config = .ok scheduler)
    (ranked : scheduler.isRanked = true) (steady : scheduler.isSteady = true)
    (uniform : ∀ time, ∀ task ∈ tasksAt workload time, scheduler.criterion task = key) :
    SameOutcome workload config .fcfs policy :=
  sameOutcome_of_undisturbed valid rfl decides rfl steady
    (Lineup.undisturbed_of_uniform ranked steady (unaged_tasksAt workload)
      (arrival_tasksAt workload) uniform (order_tasksAt workload))

/-- Where all services are the same, or all priorities, the policies that go by them do the
same as first come, first served. -/
theorem simulate_uniform_criterion (valid : validate workload = .ok ()) :
    ((∀ first ∈ workload, ∀ second ∈ workload, first.service = second.service) →
      SameOutcome workload config .fcfs .sjf ∧ SameOutcome workload config .fcfs .srtf) ∧
    ((∀ first ∈ workload, ∀ second ∈ workload, first.priority = second.priority) →
      SameOutcome workload config .fcfs .priority ∧
        SameOutcome workload config .fcfs .preemptivePriority ∧
        ∀ quantum, config.quantum = some quantum → 0 < quantum → config.agingIncrement = some 0 →
          SameOutcome workload config .fcfs .agingRoundRobin) := by
  obtain ⟨model, isModel⟩ :=
    List.exists_mem_of_ne_nil workload (Simulation.validate_eq_ok_iff.mp valid).1
  have exists_spec {time : Nat} {task : Task} (isTask : task ∈ tasksAt workload time) :
      ∃ spec ∈ workload, task.remaining = spec.service.toNat ∧ task.priority = spec.priority.toNat ∧
        task.effectivePriority = spec.priority.toNat := by
    obtain ⟨job, submitted, _, rfl⟩ := mem_tasksAt.mp isTask
    obtain ⟨index, spec, listed, rfl⟩ := Job.mem_ofWorkload.mp submitted
    exact ⟨spec, List.mem_of_getElem? listed, rfl, rfl, rfl⟩
  constructor
  · intro alike
    have uniform (time : Nat) : ∀ task ∈ tasksAt workload time,
        Scheduler.sjf.criterion task = -(model.service.toNat : Int) := by
      intro task isTask
      obtain ⟨spec, isSpec, service, _⟩ := exists_spec isTask
      rw [Scheduler.criterion, service, alike spec isSpec model isModel]
    exact ⟨sameOutcome_of_uniform valid rfl rfl rfl uniform,
      sameOutcome_of_uniform valid rfl rfl rfl uniform⟩
  · intro alike
    have uniform (time : Nat) : ∀ task ∈ tasksAt workload time,
        Scheduler.priority.criterion task = (model.priority.toNat : Int) := by
      intro task isTask
      obtain ⟨spec, isSpec, _, priority, _⟩ := exists_spec isTask
      rw [Scheduler.criterion, priority, alike spec isSpec model isModel]
    refine ⟨sameOutcome_of_uniform valid rfl rfl rfl uniform,
      sameOutcome_of_uniform valid rfl rfl rfl uniform, fun quantum given positive noAging => ?_⟩
    have required : config.requiredQuantum = .ok quantum.toNat :=
      Config.requiredQuantum_eq_ok_iff.mpr ⟨quantum, given, UInt64.pos_iff_ne_zero.mp positive, rfl⟩
    have slices : Scheduler.ofPolicy .agingRoundRobin config =
        .ok (.agingRoundRobin quantum.toNat 0) := by
      simp [Scheduler.ofPolicy, required, Except.map, Config.agingStep, noAging]
    have alsoUniform (time : Nat) : ∀ task ∈ tasksAt workload time,
        (Scheduler.agingRoundRobin quantum.toNat 0).criterion task =
          (model.priority.toNat : Int) := by
      intro task isTask
      obtain ⟨spec, isSpec, _, _, effective⟩ := exists_spec isTask
      rw [Scheduler.criterion, effective, alike spec isSpec model isModel]
    exact sameOutcome_of_uniform valid slices rfl rfl alsoUniform

/-- Jobs with the same service and the same priority, with slices of one tick. -/
theorem simulate_uniform_criterion_four :
    let workload : List Spec := [⟨0, 2, 3⟩, ⟨1, 2, 3⟩, ⟨1, 2, 3⟩, ⟨8, 2, 3⟩]
    let config : Config := { quantum := some 1, agingIncrement := some 0 }
    SameOutcome workload config .fcfs .sjf ∧ SameOutcome workload config .fcfs .srtf ∧
      SameOutcome workload config .fcfs .priority ∧
      SameOutcome workload config .fcfs .preemptivePriority ∧
      SameOutcome workload config .fcfs .agingRoundRobin ∧
      (simulate workload config .agingRoundRobin).toOption.map Schedule.timeline =
        some [some 1, some 1, some 2, some 2, some 3, some 3, none, none, some 4, some 4] := by
  intro workload config
  have valid : validate workload = .ok () := by decide
  obtain ⟨ofServices, ofPriorities⟩ := @simulate_uniform_criterion workload config valid
  have services := ofServices (by decide)
  obtain ⟨plain, preemptive, sliced⟩ := ofPriorities (by decide)
  exact ⟨services.1, services.2, plain, preemptive, sliced 1 rfl (by decide) rfl, by decide +kernel⟩

end CpuScheduling
