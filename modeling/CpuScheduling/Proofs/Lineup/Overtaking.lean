import CpuScheduling.Proofs.Lineup.Live
import CpuScheduling.Proofs.Lineup.Undisturbed

/-!
Who overtakes.  Once a tick has been given away nobody who waits would take the CPU from its
holder, and work only moves the holder further ahead.  So without slices, whoever overtakes the
holder at the beginning of a tick has come with that tick.
-/

namespace CpuScheduling

variable {scheduler : Scheduler}

namespace Scheduler

variable {front other holder : Task}

theorem not_overtakes_of_behind (stands : scheduler.precedes front other)
    (loses : scheduler.overtakes front holder = false) :
    scheduler.overtakes other holder = false := by
  cases scheduler with
  | srtf =>
      have order := (precedes_iff rfl).mp stands
      simp only [criterion] at order
      simp only [overtakes, decide_eq_false_iff_not] at loses ⊢
      omega
  | preemptivePriority =>
      have holds : precedes .preemptivePriority holder front = true := by
        simpa [overtakes] using loses
      exact not_overtakes_of_precedes (precedes_trans rfl holder front other holds stands)
  | _ => rfl

theorem not_overtakes_worked (loses : scheduler.overtakes other holder = false) :
    scheduler.overtakes other holder.worked = false := by
  cases scheduler with
  | srtf =>
      have fewer : holder.worked.remaining ≤ holder.remaining := Nat.sub_le _ _
      simp only [overtakes, decide_eq_false_iff_not] at loses ⊢
      omega
  | preemptivePriority =>
      have holds : precedes .preemptivePriority holder other = true := by
        simpa [overtakes] using loses
      exact not_overtakes_of_precedes (precedes_worked holds)
  | _ => rfl

end Scheduler

namespace Lineup

variable {come : Nat → List Task} {lineup : Lineup}

/-- Nobody who waits would take the CPU from its holder. -/
def Uncontested (scheduler : Scheduler) (lineup : Lineup) : Prop :=
  ∀ tenure, lineup.holder = some tenure → ∀ task ∈ lineup.waiting,
    scheduler.overtakes task tenure.task = false

theorem Quiet.uncontested (quiet : lineup.Quiet scheduler) (ordered : lineup.Ordered scheduler) :
    lineup.Uncontested scheduler := by
  intro tenure isHolder task waits
  cases ranked : scheduler.isRanked with
  | false => exact Scheduler.not_overtakes ranked
  | true =>
      obtain ⟨front, rest, waiting⟩ := List.exists_cons_of_ne_nil (List.ne_nil_of_mem waits)
      have loses := quiet.front tenure front rest isHolder waiting
      have order := ordered ranked
      rw [waiting] at waits order
      rcases List.mem_cons.mp waits with rfl | behind
      · exact loses
      · exact Scheduler.not_overtakes_of_behind ((List.pairwise_cons.mp order).1 task behind) loses

section Endless

variable (endless : ∀ used, scheduler.usesUp used = false)

include endless

theorem Uncontested.work (uncontested : lineup.Uncontested scheduler) :
    (lineup.work scheduler).Uncontested scheduler := by
  intro later isHolder task waits
  unfold Lineup.work at isHolder waits
  split at isHolder
  next nobody => simp [nobody] at isHolder
  next tenure isTenure =>
    split at isHolder
    next => cases isHolder
    next goesOn =>
      cases isHolder
      simp only [isTenure, goesOn, endless, ↓reduceIte, Bool.false_eq_true] at waits
      exact Scheduler.not_overtakes_worked (uncontested tenure isTenure task waits)

theorem uncontested_before (come : Nat → List Task) (time : Nat) :
    (before scheduler come time).Uncontested scheduler := by
  cases time with
  | zero => exact fun _ nobody => nomatch nobody
  | succ time =>
      have ordered := ((Ordered.before scheduler come time).gather (come time)).dispatch
      have quiet := quiet_during (endless 0) come time
      exact (quiet.uncontested ordered).work endless

/-- Whoever overtakes has come with this tick, and takes the CPU from one who was there before. -/
theorem newcomer_of_overtakes {time : Nat} {tenure : Tenure} {front : Task}
    (isHolder : (gather scheduler (before scheduler come time) (come time)).holder = some tenure)
    (waits : front ∈ (gather scheduler (before scheduler come time) (come time)).waiting)
    (wins : scheduler.overtakes front tenure.task = true) :
    front ∈ come time ∧ (before scheduler come time).holder = some tenure := by
  rw [holder_gather endless] at isHolder
  refine ⟨?_, isHolder⟩
  rw [gather, requeue_of_goesOn fun _ _ => endless _, mem_waiting_joinAll] at waits
  refine waits.resolve_right fun waited => ?_
  rw [uncontested_before endless come time tenure isHolder front waited] at wins
  cases wins

end Endless

end Lineup

end CpuScheduling
