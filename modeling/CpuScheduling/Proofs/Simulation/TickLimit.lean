import CpuScheduling.Proofs.Simulation.SameOutcome

/-!
What the limit on ticks decides.  A run knows it only as the time at which it is given up, so
that under any two limits which it does not reach the outcome is the same.
-/

namespace CpuScheduling

variable {workload : List Spec} {config : Config} {policy : Policy}
  {schedule otherSchedule : Schedule} {limit other : UInt64}

def Config.limited (config : Config) (limit : UInt64) : Config :=
  { config with maxTicks := limit }

@[simp]
theorem Config.limited_maxTicks : (config.limited limit).maxTicks = limit := rfl

@[simp]
theorem Config.limited_quantum : (config.limited limit).quantum = config.quantum := rfl

@[simp]
theorem Config.limited_agingIncrement :
    (config.limited limit).agingIncrement = config.agingIncrement := rfl

def Config.LacksQuantum (config : Config) (policy : Policy) : Prop :=
  policy.usesQuantum = true ∧ (config.quantum = none ∨ config.quantum = some 0)

instance (config : Config) (policy : Policy) : Decidable (config.LacksQuantum policy) :=
  inferInstanceAs (Decidable (_ ∧ _))

/-- A request is refused for what neither of two limits on ticks changes, or it completes within
both of them. -/
def Indifferent (workload : List Spec) (config : Config) (policy : Policy)
    (limit other : UInt64) : Prop :=
  validate workload ≠ .ok () ∨
    limit ≠ 0 ∧ other ≠ 0 ∧
      (config.LacksQuantum policy ∨
        makespan workload ≤ limit.toNat ∧ makespan workload ≤ other.toNat)

theorem Indifferent.of_unsliced {unsliced : Policy} (unslicing : unsliced.usesQuantum = false)
    (indifferent : Indifferent workload config unsliced limit other) :
    Indifferent workload config policy limit other := by
  refine indifferent.imp_right fun ⟨positive, otherPositive, settled⟩ =>
    ⟨positive, otherPositive, .inr (settled.resolve_left fun lacks => ?_)⟩
  cases unslicing.symm.trans lacks.1

section Cases

variable (valid : validate workload = .ok ())

include valid

theorem simulate_of_zero_limit :
    simulate workload (config.limited 0) policy = .error (.refused .zeroMaxTicks) :=
  simulate_of_refused valid (Simulation.ofWorkload_of_tickLimit (by simp [Config.tickLimit]))

theorem simulate_of_lacksQuantum (lacks : config.LacksQuantum policy) (positive : limit ≠ 0) :
    simulate workload (config.limited limit) policy =
      .error (.refused (if config.quantum = none then .missingQuantum else .zeroQuantum)) := by
  obtain ⟨uses, missing | zero⟩ := lacks
  · exact simulate_of_refused valid (Simulation.ofWorkload_of_requiredQuantum positive uses
      (by simp [Config.requiredQuantum, missing]))
  · exact simulate_of_refused valid (Simulation.ofWorkload_of_requiredQuantum positive uses
      (by simp [Config.requiredQuantum, zero]))

theorem simulate_of_equipped (equipped : ¬config.LacksQuantum policy) (positive : limit ≠ 0) :
    if makespan workload ≤ limit.toNat then
      ∃ schedule, simulate workload (config.limited limit) policy = .ok schedule
    else
      simulate workload (config.limited limit) policy =
        .error (.refused (.divergence limit.toNat)) := by
  have slices (uses : policy.usesQuantum = true) :
      ∃ quantum, config.quantum = some quantum ∧ quantum ≠ 0 := by
    cases given : config.quantum with
    | none => exact absurd ⟨uses, .inl given⟩ equipped
    | some quantum =>
        exact ⟨quantum, rfl, fun zero => equipped ⟨uses, .inr (zero ▸ given)⟩⟩
  obtain ⟨first, created⟩ :
      ∃ first, Simulation.ofWorkload workload (config.limited limit) policy = .ok first :=
    Simulation.exists_ofWorkload positive slices
  exact (simulate_of_accepted valid created).2

theorem simulate_ne_zeroMaxTicks (positive : limit ≠ 0) :
    simulate workload (config.limited limit) policy ≠ .error (.refused .zeroMaxTicks) := by
  intro refused
  by_cases lacks : config.LacksQuantum policy
  · rw [simulate_of_lacksQuantum valid lacks positive] at refused
    split at refused <;> cases refused
  · have ends := simulate_of_equipped valid lacks positive
    split at ends
    next =>
      obtain ⟨schedule, ran⟩ := ends
      cases ran.symm.trans refused
    next => cases ends.symm.trans refused

end Cases

theorem schedule_eq_of_limited (ran : simulate workload (config.limited limit) policy = .ok schedule)
    (otherRan : simulate workload (config.limited other) policy = .ok otherSchedule) :
    otherSchedule = schedule := by
  obtain ⟨scheduler, decides⟩ := exists_scheduler_of_simulate ran
  have otherDecides : Scheduler.ofPolicy policy (config.limited other) = .ok scheduler := by
    rw [← decides]
    cases policy <;> rfl
  have same := eq_named_of_occupantAt ran otherRan fun time =>
    (occupantAt_of_simulate otherDecides otherRan time).trans
      (occupantAt_of_simulate decides ran time).symm
  rw [same, Schedule.named, ← (measured_of_simulate ran).1]

/-- Two limits on ticks lead to the same outcome exactly where they are the same, or where the
request does not depend on them. -/
theorem simulate_limited_iff :
    simulate workload (config.limited limit) policy =
        simulate workload (config.limited other) policy ↔
      limit = other ∨ Indifferent workload config policy limit other := by
  cases valid : validate workload with
  | error refusal => simp [simulate_of_invalid valid, Indifferent, valid]
  | ok =>
      constructor
      · intro same
        refine or_iff_not_imp_left.mpr fun different => .inr ?_
        have positive : limit ≠ 0 := by
          rintro rfl
          exact simulate_ne_zeroMaxTicks valid (Ne.symm different)
            (same.symm.trans (simulate_of_zero_limit valid))
        have otherPositive : other ≠ 0 := by
          rintro rfl
          exact simulate_ne_zeroMaxTicks valid different
            (same.trans (simulate_of_zero_limit valid))
        refine ⟨positive, otherPositive, or_iff_not_imp_left.mpr fun equipped => ?_⟩
        have ends := simulate_of_equipped valid equipped positive
        have otherEnds := simulate_of_equipped valid equipped otherPositive
        split at ends <;> split at otherEnds
        next inTime otherInTime => exact ⟨inTime, otherInTime⟩
        next =>
          obtain ⟨schedule, ran⟩ := ends
          cases (ran.symm.trans same).trans otherEnds
        next =>
          obtain ⟨schedule, ran⟩ := otherEnds
          cases (ran.symm.trans same.symm).trans ends
        next =>
          have limits := (ends.symm.trans same).trans otherEnds
          simp only [Except.error.injEq, Failure.refused.injEq, Refusal.divergence.injEq] at limits
          exact absurd (UInt64.toNat_inj.mp limits) different
      · rintro (rfl | invalid | ⟨positive, otherPositive, settled⟩)
        · rfl
        · exact absurd valid invalid
        · by_cases lacks : config.LacksQuantum policy
          · exact (simulate_of_lacksQuantum valid lacks positive).trans
              (simulate_of_lacksQuantum valid lacks otherPositive).symm
          obtain ⟨inTime, otherInTime⟩ := settled.resolve_left lacks
          have ends := simulate_of_equipped valid lacks positive
          have otherEnds := simulate_of_equipped valid lacks otherPositive
          rw [if_pos inTime] at ends
          rw [if_pos otherInTime] at otherEnds
          obtain ⟨schedule, ran⟩ := ends
          obtain ⟨otherSchedule, otherRan⟩ := otherEnds
          rw [ran, otherRan, schedule_eq_of_limited ran otherRan]

end CpuScheduling
