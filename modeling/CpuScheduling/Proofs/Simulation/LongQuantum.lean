import CpuScheduling.Proofs.Simulation.SameOutcome

/-!
A quantum that no job outlasts.  Whoever gets the CPU completes within its slice, at the
latest with its last tick, so round robin is first come, first served, and without aging
round robin over priorities runs the highest priority to completion.
-/

namespace CpuScheduling

def Task.Short (quantum : Nat) (task : Task) : Prop :=
  0 < task.remaining ∧ task.remaining ≤ quantum

/-- The ticks used and those that are still to come fit into a slice. -/
def Tenure.Within (quantum : Nat) (tenure : Tenure) : Prop :=
  tenure.used + tenure.task.remaining ≤ quantum

section Lineups

variable {scheduler plain : Scheduler} {quantum : Nat} {come : Nat → List Task} {lineup : Lineup}

theorem Task.short_lasting (scheduler : Scheduler) (quantum : Nat) :
    Task.Lasting scheduler (Task.Short quantum) where
  picked task short := by cases scheduler <;> exact short
  waited task short := by
    cases scheduler with
    | agingRoundRobin quantum step =>
        simp only [Task.waited]
        split <;> exact short
    | _ => exact short
  worked task short goesOn := by
    obtain ⟨positive, atMost⟩ := short
    simp only [Task.Short, Task.worked]
    omega

theorem Scheduler.not_usesUp_of_within {tenure : Tenure} (slices : scheduler.quantum? = some quantum)
    (within : tenure.Within quantum) (short : tenure.task.Short quantum) :
    scheduler.usesUp tenure.used = false := by
  have fits : tenure.used + tenure.task.remaining ≤ quantum := within
  have positive := short.1
  rw [usesUp, slices, Option.any_some, decide_eq_false_iff_not]
  omega

theorem Scheduler.not_overtakes_of_quantum? (slices : scheduler.quantum? = some quantum)
    (front holder : Task) : scheduler.overtakes front holder = false := by
  cases scheduler with
  | srtf | preemptivePriority => cases slices
  | _ => rfl

namespace Lineup

theorem within_requeue
    (within : ∀ tenure, lineup.holder = some tenure → tenure.Within quantum) :
    ∀ tenure, (lineup.requeue scheduler).holder = some tenure → tenure.Within quantum := by
  unfold requeue
  split
  next => exact within
  next =>
    split
    next => simp
    next => exact within

theorem within_dispatch (short : lineup.Every (Task.Short quantum))
    (within : ∀ tenure, lineup.holder = some tenure → tenure.Within quantum) :
    ∀ tenure, (lineup.dispatch scheduler).holder = some tenure → tenure.Within quantum := by
  unfold dispatch
  split
  next => exact within
  next front rest waiting =>
    have isFront : front.Short quantum := short.waiting front (by simp [waiting])
    have begins {task : Task} (short : task.Short quantum) :
        Tenure.Within quantum { task := task } := by
      simpa [Tenure.Within] using short.2
    split
    next =>
      rintro tenure ⟨⟩
      exact begins ((Task.short_lasting scheduler quantum).picked front isFront)
    next =>
      split
      next =>
        rintro tenure ⟨⟩
        exact begins isFront
      next => exact within

theorem within_work (short : lineup.Every (Task.Short quantum))
    (within : ∀ tenure, lineup.holder = some tenure → tenure.Within quantum) :
    ∀ tenure, (lineup.work scheduler).holder = some tenure → tenure.Within quantum := by
  unfold work
  split
  next => exact within
  next tenure isHolder =>
    split
    next => simp
    next =>
      rintro worked ⟨⟩
      have fits : tenure.used + tenure.task.remaining ≤ quantum := within tenure isHolder
      have positive := (short.holder tenure isHolder).1
      simp only [Tenure.Within, Tenure.worked, Task.worked]
      omega

/-- Whoever has the CPU completes within its slice. -/
theorem within_before (short : ∀ time, ∀ task ∈ come time, task.Short quantum) (time : Nat) :
    ∀ tenure, (before scheduler come time).holder = some tenure → tenure.Within quantum := by
  induction time with
  | zero => simp [before]
  | succ time inductionHypothesis =>
      have lasting := Task.short_lasting scheduler quantum
      have gathered : ((before scheduler come time).gather scheduler (come time)).Every
          (Task.Short quantum) := (Every.before lasting short time).gather (short time)
      have joined : ∀ tenure, ((come time).foldl (join scheduler)
          (before scheduler come time)).holder = some tenure → tenure.Within quantum := by
        rw [holder_joinAll]
        exact inductionHypothesis
      exact within_work (gathered.dispatch lasting)
        (within_dispatch gathered (within_requeue joined))

/-- Where the quantum is long enough for all that come, slices disturb nobody. -/
theorem undisturbed_of_short (slices : scheduler.quantum? = some quantum)
    (agree : ∀ first second, first.Unaged → second.Unaged →
      scheduler.precedes first second = plain.precedes first second)
    (steady : scheduler.isSteady = true) (new : ∀ time, ∀ task ∈ come time, task.Unaged)
    (short : ∀ time, ∀ task ∈ come time, task.Short quantum) (time : Nat) :
    (before scheduler come time).Undisturbed scheduler plain (come time) := by
  have unaged := Every.before (Task.unaged_lasting steady) new time
  have lasting := Every.before (Task.short_lasting scheduler quantum) short time
  refine ⟨joinAll_congr (fun task comes other waits => ?_) ?_, fun tenure isHolder => ?_⟩
  · exact agree task other (new time task comes) (unaged.waiting other waits)
  · exact List.pairwise_of_forall_mem_list fun early isEarly late isLate =>
      agree late early (new time late isLate) (new time early isEarly)
  · have held : ((come time).foldl (join scheduler) (before scheduler come time)).holder =
        some tenure := (holder_joinAll ..).trans isHolder
    have goesOn : scheduler.usesUp tenure.used = false :=
      Scheduler.not_usesUp_of_within slices (within_before short time tenure isHolder)
        (lasting.holder tenure isHolder)
    rw [assign, gather, requeue_of_goesOn, dispatch_of_holder held]
    · exact .refl _
    · exact fun _ _ _ => Scheduler.not_overtakes_of_quantum? slices _ _
    · intro other isOther
      cases held.symm.trans isOther
      exact goesOn

end Lineup

theorem Scheduler.precedes_agingRoundRobin {step : Nat} {first second : Task}
    (isFirst : first.Unaged) (isSecond : second.Unaged) :
    (agingRoundRobin quantum step).precedes first second = priority.precedes first second := by
  have criterion {task : Task} (unaged : task.Unaged) :
      (agingRoundRobin quantum step).criterion task = priority.criterion task :=
    congrArg Int.ofNat unaged
  simp only [precedes, isRanked, criterion isFirst, criterion isSecond]

end Lineups

variable {workload : List Spec} {config : Config} {quantum : UInt64}

theorem short_tasksAt (valid : validate workload = .ok ())
    (long : ∀ spec ∈ workload, spec.service ≤ quantum) (time : Nat) :
    ∀ task ∈ tasksAt workload time, task.Short quantum.toNat := by
  intro task member
  obtain ⟨job, submitted, _, rfl⟩ := mem_tasksAt.mp member
  obtain ⟨index, spec, listed, rfl⟩ := Job.mem_ofWorkload.mp submitted
  have isSpec := List.mem_of_getElem? listed
  exact ⟨UInt64.lt_iff_toNat_lt.mp ((Simulation.validate_eq_ok_iff.mp valid).2 spec isSpec),
    UInt64.le_iff_toNat_le.mp (long spec isSpec)⟩

/-- Where the quantum is at least as long as every service, slices change nothing. -/
theorem simulate_long_quantum (valid : validate workload = .ok ())
    (given : config.quantum = some quantum) (long : ∀ spec ∈ workload, spec.service ≤ quantum) :
    SameOutcome workload config .fcfs .roundRobin ∧
      (config.agingIncrement = some 0 → SameOutcome workload config .priority .agingRoundRobin) := by
  have required : config.requiredQuantum = .ok quantum.toNat := by
    refine Config.requiredQuantum_eq_ok_iff.mpr ⟨quantum, given, ?_, rfl⟩
    rintro rfl
    obtain ⟨nonempty, positive⟩ := Simulation.validate_eq_ok_iff.mp valid
    obtain ⟨spec, isSpec⟩ := List.exists_mem_of_ne_nil workload nonempty
    exact UInt64.not_lt.mpr (long spec isSpec) (positive spec isSpec)
  have short := short_tasksAt valid long
  have unaged := unaged_tasksAt workload
  constructor
  · have slices : Scheduler.ofPolicy .roundRobin config = .ok (.roundRobin quantum.toNat) := by
      simp [Scheduler.ofPolicy, required, Except.map]
    exact sameOutcome_of_undisturbed valid rfl slices rfl rfl
      (Lineup.undisturbed_of_short rfl (fun _ _ _ _ => rfl) rfl unaged short)
  · intro noAging
    have slices : Scheduler.ofPolicy .agingRoundRobin config =
        .ok (.agingRoundRobin quantum.toNat 0) := by
      simp [Scheduler.ofPolicy, required, Except.map, Config.agingStep, noAging]
    exact sameOutcome_of_undisturbed valid rfl slices rfl rfl
      (Lineup.undisturbed_of_short rfl
        (fun _ _ isFirst isSecond => Scheduler.precedes_agingRoundRobin isFirst isSecond)
        rfl unaged short)

/-- The first job completes with the last tick of its slice, while two others wait. -/
theorem simulate_long_quantum_whole_slice :
    SameOutcome [⟨0, 3, 0⟩, ⟨1, 2, 5⟩, ⟨2, 1, 7⟩, ⟨9, 3, 1⟩]
        { quantum := some 3, agingIncrement := some 0 } .fcfs .roundRobin ∧
      SameOutcome [⟨0, 3, 0⟩, ⟨1, 2, 5⟩, ⟨2, 1, 7⟩, ⟨9, 3, 1⟩]
        { quantum := some 3, agingIncrement := some 0 } .priority .agingRoundRobin ∧
      (simulate [⟨0, 3, 0⟩, ⟨1, 2, 5⟩, ⟨2, 1, 7⟩, ⟨9, 3, 1⟩]
        { quantum := some 3, agingIncrement := some 0 } .roundRobin).toOption.map
          Schedule.timeline =
        some [some 1, some 1, some 1, some 2, some 2, some 3, none, none, none, some 4, some 4,
          some 4] := by
  have both : SameOutcome [⟨0, 3, 0⟩, ⟨1, 2, 5⟩, ⟨2, 1, 7⟩, ⟨9, 3, 1⟩]
        { quantum := some 3, agingIncrement := some 0 } .fcfs .roundRobin ∧
      (some (0 : UInt32) = some 0 → SameOutcome [⟨0, 3, 0⟩, ⟨1, 2, 5⟩, ⟨2, 1, 7⟩, ⟨9, 3, 1⟩]
        { quantum := some 3, agingIncrement := some 0 } .priority .agingRoundRobin) :=
    simulate_long_quantum (by decide) rfl (by decide)
  exact ⟨both.1, both.2 rfl, by decide +kernel⟩

end CpuScheduling
