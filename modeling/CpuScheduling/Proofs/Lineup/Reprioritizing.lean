import CpuScheduling.Proofs.Lineup.Conversion
import CpuScheduling.Proofs.Lineup.Undisturbed
import Mathlib.Order.Monotone.Basic

/-!
Other priorities.  A policy that does not go by priorities does not see them, and one that
goes by them sees nothing but their order, as long as waiting adds nothing to them.
-/

namespace CpuScheduling

def Scheduler.goesByPriority : Scheduler → Bool
  | priority | preemptivePriority | agingRoundRobin _ _ => true
  | _ => false

def Task.reprioritized (level : Nat → Nat) (task : Task) : Task :=
  { task with
    priority := level task.priority
    effectivePriority := level task.effectivePriority }

def Job.reprioritized (level : Nat → Nat) (job : Job) : Job :=
  { job with
    priority := level job.priority
    effectivePriority := level job.effectivePriority }

variable {scheduler : Scheduler} {known : Task → Prop} {level : Nat → Nat} {first second : Task}

/-- Waiting adds nothing to the priorities, and where the policy goes by them they keep their
order. -/
structure Reprioritizes (scheduler : Scheduler) (known : Task → Prop) (level : Nat → Nat) :
    Prop where
  steady : scheduler.isSteady = true
  lasting : Task.Lasting scheduler known
  unaged : ∀ task, known task → task.Unaged
  order : scheduler.goesByPriority = true →
    StrictMonoOn level {priority | ∃ task, known task ∧ task.priority = priority}

theorem Task.Unaged.criterion_eq {task : Task} (unaged : task.Unaged)
    (goes : scheduler.goesByPriority = true) : scheduler.criterion task = task.priority := by
  cases scheduler with
  | priority | preemptivePriority => rfl
  | agingRoundRobin => exact congrArg Int.ofNat unaged
  | _ => cases goes

theorem Task.Unaged.reprioritized {task : Task} (unaged : task.Unaged) (level : Nat → Nat) :
    (task.reprioritized level).Unaged :=
  congrArg level unaged

theorem Scheduler.criterion_reprioritized (ignores : scheduler.goesByPriority = false)
    (level : Nat → Nat) (task : Task) :
    scheduler.criterion (task.reprioritized level) = scheduler.criterion task := by
  cases scheduler with
  | priority | preemptivePriority | agingRoundRobin => cases ignores
  | _ => rfl

namespace Reprioritizes

variable (reprioritizes : Reprioritizes scheduler known level)

include reprioritizes

theorem criterion_lt_iff (isFirst : known first) (isSecond : known second) :
    scheduler.criterion (first.reprioritized level) <
        scheduler.criterion (second.reprioritized level) ↔
      scheduler.criterion first < scheduler.criterion second := by
  cases goes : scheduler.goesByPriority with
  | false => simp only [Scheduler.criterion_reprioritized goes]
  | true =>
      have unaged := reprioritizes.unaged first isFirst
      have alsoUnaged := reprioritizes.unaged second isSecond
      rw [unaged.criterion_eq goes, alsoUnaged.criterion_eq goes,
        (unaged.reprioritized level).criterion_eq goes,
        (alsoUnaged.reprioritized level).criterion_eq goes, Int.ofNat_lt, Int.ofNat_lt]
      exact (reprioritizes.order goes).lt_iff_lt ⟨first, isFirst, rfl⟩ ⟨second, isSecond, rfl⟩

theorem precedes (isFirst : known first) (isSecond : known second) :
    scheduler.precedes (first.reprioritized level) (second.reprioritized level) =
      scheduler.precedes first second :=
  Scheduler.precedes_congr rfl (reprioritizes.criterion_lt_iff isSecond isFirst)
    (reprioritizes.criterion_lt_iff isFirst isSecond) rfl

theorem faithful : Faithful scheduler scheduler known (·.reprioritized level) id where
  lasting := reprioritizes.lasting
  precedes _ _ isFirst isSecond := reprioritizes.precedes isFirst isSecond
  overtakes front holder isFront isHolder := by
    cases scheduler with
    | preemptivePriority =>
        simp only [Scheduler.overtakes]
        rw [reprioritizes.precedes isHolder isFront]
    | _ => rfl
  usesUp _ := rfl
  unused := rfl
  picked _ := by cases scheduler <;> rfl
  reorder waiting all := by
    have steady := reprioritizes.steady
    cases scheduler with
    | agingRoundRobin quantum step =>
        refine Scheduler.reorder_map (fun task => ?_) fun first isFirst second isSecond => ?_
        · simp only [Task.waited_of_isSteady steady]
        · exact reprioritizes.precedes (reprioritizes.lasting.waited first (all first isFirst))
            (reprioritizes.lasting.waited second (all second isSecond))
    | _ => rfl

/-- Whoever has a tick has it under the other priorities too. -/
theorem occupant {come : Nat → List Task} (new : ∀ time, ∀ task ∈ come time, known task)
    (time : Nat) :
    (Lineup.during scheduler (fun time => (come time).map (·.reprioritized level)) time).occupant =
      (Lineup.during scheduler come time).occupant := by
  have keeps : Task.KeepsWork (·.reprioritized level) := ⟨fun _ => rfl, fun _ => rfl⟩
  have named : ∀ task : Task, (task.reprioritized level).id = id task.id := fun _ => rfl
  rw [Lineup.during_converted reprioritizes.faithful keeps new, Lineup.occupant_converted named,
    Option.map_id_apply]

end Reprioritizes

end CpuScheduling
