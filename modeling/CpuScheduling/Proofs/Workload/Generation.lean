import CpuScheduling.Workload.Bernoulli
import Mathlib.Data.List.Range

/-!
What a synthetic workload looks like, whatever generator draws it.  The draws of a tick begin where
those of the tick before it ended, however many ticks there are to come.  So the job that arrives at
a tick is a matter of the state at the beginning and the chances alone, and a workload lists the
jobs of its ticks.
-/

namespace CpuScheduling.Bernoulli

open CpuScheduling.Random (Generator Stream)

section Drawing

variable {State : Type} (generator : Generator State) (start : State) (parameters : Bernoulli)

def stateAt : Nat → State
  | 0 => start
  | tick + 1 => (parameters.arrival? generator tick (stateAt tick)).2

def jobAt? (tick : Nat) : Option Spec :=
  (parameters.arrival? generator tick (parameters.stateAt generator start tick)).1

theorem arrivals_eq_filterMap (tick ticks : Nat) :
    parameters.arrivals generator tick ticks (parameters.stateAt generator start tick) =
      (List.range' tick ticks).filterMap (parameters.jobAt? generator start) := by
  induction ticks generalizing tick with
  | zero => rfl
  | succ ticks inductionHypothesis =>
      have others := inductionHypothesis (tick + 1)
      rw [List.range'_succ, List.filterMap_cons, ← others, jobAt?, stateAt, arrivals]
      rcases parameters.arrival? generator tick (parameters.stateAt generator start tick) with
        ⟨_ | spec, later⟩ <;> rfl

theorem drawn_eq_filterMap : parameters.drawn generator start =
    (List.range parameters.ticks.toNat).filterMap (parameters.jobAt? generator start) := by
  rw [List.range_eq_range']
  exact arrivals_eq_filterMap generator start parameters 0 parameters.ticks.toNat

theorem stateAt_ticks (ticks : UInt64) (tick : Nat) :
    { parameters with ticks := ticks }.stateAt generator start tick =
      parameters.stateAt generator start tick := by
  induction tick with
  | zero => rfl
  | succ tick inductionHypothesis =>
      rw [stateAt, stateAt, inductionHypothesis]
      rfl

theorem jobAt?_ticks (ticks : UInt64) :
    { parameters with ticks := ticks }.jobAt? generator start =
      parameters.jobAt? generator start := by
  funext tick
  rw [jobAt?, jobAt?, stateAt_ticks]
  rfl

variable {generator start parameters} {tick : Nat} {state : State} {spec : Spec}

theorem arrival?_spec (arrives : (parameters.arrival? generator tick state).1 = some spec) :
    spec.arrival = UInt64.ofNat tick ∧
      (spec.service = parameters.shortService ∨ spec.service = parameters.longService) ∧
      spec.priority ≤ parameters.maxPriority := by
  simp only [arrival?] at arrives
  split at arrives
  next =>
    cases arrives
    refine ⟨rfl, ?_, generator.upTo_le _ _⟩
    split
    next => exact .inl rfl
    next => exact .inr rfl
  next => cases arrives

theorem isSome_jobAt? : (parameters.jobAt? generator start tick).isSome ↔
    (generator.fraction (parameters.stateAt generator start tick)).1 <
      parameters.arrivalChance := by
  simp only [jobAt?, arrival?]
  split
  next arrives => simp [arrives]
  next nobody => simp [nobody]

theorem toNat_arrival_of_jobAt? (arrives : parameters.jobAt? generator start tick = some spec)
    (inTime : tick < parameters.ticks.toNat) : spec.arrival.toNat = tick := by
  rw [(arrival?_spec arrives).1]
  exact UInt64.toNat_ofNat_of_lt' (Nat.lt_trans inTime parameters.ticks.toNat_lt)

theorem arrival_lt_iff (arrives : parameters.jobAt? generator start tick = some spec)
    (inTime : tick < parameters.ticks.toNat) {limit : UInt64} :
    spec.arrival < limit ↔ tick < limit.toNat := by
  rw [UInt64.lt_iff_toNat_lt, toNat_arrival_of_jobAt? arrives inTime]

theorem mem_drawn : spec ∈ parameters.drawn generator start ↔
    ∃ tick < parameters.ticks.toNat, parameters.jobAt? generator start tick = some spec := by
  simp [drawn_eq_filterMap]

end Drawing

/-- What is promised of the jobs that are drawn. -/
structure Describes (parameters : Bernoulli) (workload : List Spec) : Prop where
  increasing : workload.Pairwise fun earlier later => earlier.arrival < later.arrival
  inTime : ∀ spec ∈ workload, spec.arrival < parameters.ticks
  service : ∀ spec ∈ workload,
    spec.service = parameters.shortService ∨ spec.service = parameters.longService
  priority : ∀ spec ∈ workload, spec.priority ≤ parameters.maxPriority

section Drawing

variable {State : Type} (generator : Generator State) (start : State) (parameters : Bernoulli)

theorem describes_drawn : parameters.Describes (parameters.drawn generator start) where
  increasing := by
    rw [drawn_eq_filterMap, List.pairwise_filterMap]
    apply List.pairwise_lt_range.imp_of_mem
    intro tick later isTick isLater before spec arrives other arrivesLater
    rw [arrival_lt_iff arrives (List.mem_range.mp isTick),
      toNat_arrival_of_jobAt? arrivesLater (List.mem_range.mp isLater)]
    exact before
  inTime spec member := by
    obtain ⟨tick, inTime, arrives⟩ := mem_drawn.mp member
    exact (arrival_lt_iff arrives inTime).mpr inTime
  service spec member := by
    obtain ⟨tick, -, arrives⟩ := mem_drawn.mp member
    exact (arrival?_spec arrives).2.1
  priority spec member := by
    obtain ⟨tick, -, arrives⟩ := mem_drawn.mp member
    exact (arrival?_spec arrives).2.2

/-- The jobs that arrive before a tick are what is drawn for the ticks until then. -/
theorem filter_drawn {fewer : UInt64} (atMost : fewer ≤ parameters.ticks) :
    (parameters.drawn generator start).filter (fun spec => spec.arrival < fewer) =
      { parameters with ticks := fewer }.drawn generator start := by
  obtain ⟨extra, isExtra⟩ := Nat.exists_eq_add_of_le (UInt64.le_iff_toNat_le.mp atMost)
  rw [drawn_eq_filterMap, drawn_eq_filterMap, jobAt?_ticks generator start parameters fewer,
    isExtra, List.range_add, List.filterMap_append, List.filter_append]
  have early : ∀ spec ∈
      (List.range fewer.toNat).filterMap (parameters.jobAt? generator start),
      decide (spec.arrival < fewer) = true := by
    intro spec member
    obtain ⟨tick, isTick, arrives⟩ := List.mem_filterMap.mp member
    have before := List.mem_range.mp isTick
    exact decide_eq_true ((arrival_lt_iff arrives (by omega)).mpr before)
  have late : ∀ spec ∈ ((List.range extra).map (fewer.toNat + ·)).filterMap
      (parameters.jobAt? generator start), ¬decide (spec.arrival < fewer) = true := by
    intro spec member
    obtain ⟨tick, isTick, arrives⟩ := List.mem_filterMap.mp member
    obtain ⟨beyond, isBeyond, rfl⟩ := List.mem_map.mp isTick
    have within := List.mem_range.mp isBeyond
    rw [decide_eq_true_iff, arrival_lt_iff arrives (by omega)]
    exact Nat.not_lt.mpr (Nat.le_add_right _ _)
  rw [List.filter_eq_self.mpr early, List.filter_eq_nil_iff.mpr late, List.append_nil]

/-- At each tick the first draw decides whether a job arrives. -/
theorem exists_arrival_iff {tick : Nat} (inTime : tick < parameters.ticks.toNat) :
    (∃ spec ∈ parameters.drawn generator start, spec.arrival.toNat = tick) ↔
      (generator.fraction (parameters.stateAt generator start tick)).1 <
        parameters.arrivalChance := by
  rw [← isSome_jobAt?, Option.isSome_iff_exists]
  constructor
  · rintro ⟨spec, member, atTick⟩
    obtain ⟨other, otherInTime, arrives⟩ := mem_drawn.mp member
    rw [toNat_arrival_of_jobAt? arrives otherInTime] at atTick
    exact ⟨spec, atTick ▸ arrives⟩
  · rintro ⟨spec, arrives⟩
    exact ⟨spec, mem_drawn.mpr ⟨tick, inTime, arrives⟩, toNat_arrival_of_jobAt? arrives inTime⟩

end Drawing

def streamAt (parameters : Bernoulli) (seed : UInt64) : Nat → Stream :=
  parameters.stateAt Stream.generator (Stream.ofSeed seed)

/-- The jobs are drawn in order of arrival within the limits that are set, one at each tick whose
first draw is below the chance of an arrival, and drawing for more ticks leaves those of the first
ticks as they are. -/
theorem workload_described_and_stable (parameters : Bernoulli) (seed : UInt64) :
    parameters.Describes (parameters.workload seed) ∧
      (∀ tick < parameters.ticks.toNat,
        (∃ spec ∈ parameters.workload seed, spec.arrival.toNat = tick) ↔
          (parameters.streamAt seed tick).fraction.1 < parameters.arrivalChance) ∧
      ∀ fewer more : UInt64, fewer ≤ more →
        { parameters with ticks := fewer }.workload seed =
          ({ parameters with ticks := more }.workload seed).filter
            fun spec => spec.arrival < fewer := by
  refine ⟨describes_drawn Stream.generator (Stream.ofSeed seed) parameters,
    fun _ => exists_arrival_iff Stream.generator (Stream.ofSeed seed) parameters, ?_⟩
  intro fewer more atMost
  exact (filter_drawn Stream.generator (Stream.ofSeed seed) { parameters with ticks := more }
    atMost).symm

/-- Two jobs in twelve ticks, of which the second comes too late for ten. -/
theorem workload_stable_of_default :
    ({ ticks := 12 } : Bernoulli).workload 7 = [⟨0, 6, 0⟩, ⟨10, 6, 2⟩] ∧
      ({ ticks := 10 } : Bernoulli).workload 7 =
        (({ ticks := 12 } : Bernoulli).workload 7).filter fun spec => spec.arrival < 10 :=
  ⟨by decide +kernel, (workload_described_and_stable {} 7).2.2 10 12 (by decide)⟩

end CpuScheduling.Bernoulli
