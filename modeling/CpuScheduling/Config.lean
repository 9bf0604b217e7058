import CpuScheduling.Refusal

/-!
The settings that policies share.  A policy ignores those that it does not use.
-/

namespace CpuScheduling

abbrev defaultMaxTicks : UInt64 := 100000

abbrev defaultAgingIncrement : UInt32 := 1

structure Config where
  quantum : Option UInt64 := none
  /-- The priority that a waiting job gains with every slice of another. -/
  agingIncrement : Option UInt32 := none
  /-- A run that has not finished by then is given up. -/
  maxTicks : UInt64 := defaultMaxTicks
  deriving DecidableEq, Inhabited

namespace Config

def requiredQuantum (config : Config) : Except Refusal Nat :=
  match config.quantum with
  | none => .error .missingQuantum
  | some quantum => if quantum = 0 then .error .zeroQuantum else .ok quantum.toNat

theorem requiredQuantum_eq_ok_iff {config : Config} {quantum : Nat} :
    config.requiredQuantum = .ok quantum ↔
      ∃ given, config.quantum = some given ∧ given ≠ 0 ∧ given.toNat = quantum := by
  unfold requiredQuantum
  split
  next missing => simp [missing]
  next given isGiven =>
    split
    next zero => simp [isGiven, zero]
    next nonzero => simp [isGiven, nonzero]

def agingStep (config : Config) : Nat :=
  (config.agingIncrement.getD defaultAgingIncrement).toNat

def tickLimit (config : Config) : Except Refusal Nat :=
  if config.maxTicks = 0 then .error .zeroMaxTicks else .ok config.maxTicks.toNat

end Config

end CpuScheduling
