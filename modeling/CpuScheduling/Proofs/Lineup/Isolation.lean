import CpuScheduling.Proofs.Lineup.Basic

/-!
Under preemption by priority nobody notices those that matter less: without them, the
line-up of the others would be the same.
-/

namespace CpuScheduling

open Scheduler (preemptivePriority)

def Task.isUrgent (least : Nat) (task : Task) : Bool :=
  least ≤ task.priority

/-- What of a line-up matters at least so much. -/
def Lineup.urgent (least : Nat) (lineup : Lineup) : Lineup where
  holder := lineup.holder.filter (·.task.isUrgent least)
  waiting := lineup.waiting.filter (·.isUrgent least)

variable {least : Nat} {lineup : Lineup} {task : Task}

theorem isUrgent_of_precedes {first second : Task}
    (before : preemptivePriority.precedes first second) (urgent : second.isUrgent least = true) :
    first.isUrgent least = true := by
  have order := (Scheduler.precedes_iff rfl).mp before
  simp only [Scheduler.criterion] at order
  simp only [Task.isUrgent, decide_eq_true_eq] at urgent ⊢
  omega

namespace Lineup

theorem urgent_join (ordered : lineup.Ordered preemptivePriority) :
    (lineup.join preemptivePriority task).urgent least =
      if task.isUrgent least then (lineup.urgent least).join preemptivePriority task
      else lineup.urgent least := by
  split
  next kept =>
    have inserted := filter_insertSorted_of_kept (Scheduler.precedes_trans rfl) kept (ordered rfl)
    simp only [urgent, join, inserted]
  next dropped =>
    have inserted := filter_insertSorted_of_dropped preemptivePriority.precedes
      (Bool.eq_false_iff.mpr dropped) lineup.waiting
    simp only [urgent, join, inserted]

theorem urgent_joinAll (ordered : lineup.Ordered preemptivePriority) (tasks : List Task) :
    (tasks.foldl (join preemptivePriority) lineup).urgent least =
      (tasks.filter (·.isUrgent least)).foldl (join preemptivePriority) (lineup.urgent least) := by
  induction tasks generalizing lineup with
  | nil => rfl
  | cons first rest inductionHypothesis =>
      rw [List.foldl_cons, inductionHypothesis ordered.join, urgent_join ordered, List.filter_cons]
      split <;> rfl

theorem requeue_preemptivePriority (lineup : Lineup) :
    lineup.requeue preemptivePriority = lineup := by
  unfold requeue
  split <;> rfl

theorem urgent_gather (ordered : lineup.Ordered preemptivePriority) (tasks : List Task) :
    (lineup.gather preemptivePriority tasks).urgent least =
      (lineup.urgent least).gather preemptivePriority (tasks.filter (·.isUrgent least)) := by
  rw [gather, requeue_preemptivePriority, gather, requeue_preemptivePriority, urgent_joinAll ordered]

theorem filter_isUrgent_eq_nil {front : Task} {rest : List Task}
    (first : ∀ other ∈ rest, preemptivePriority.precedes front other)
    (dropped : front.isUrgent least = false) : rest.filter (·.isUrgent least) = [] := by
  apply List.filter_eq_nil_iff.mpr
  intro other member kept
  have alsoKept := isUrgent_of_precedes (first other member) kept
  simp [dropped] at alsoKept

theorem urgent_dispatch_of_dropped {front : Task} {rest : List Task}
    (waiting : lineup.waiting = front :: rest) (dropped : front.isUrgent least = false)
    (nobody : rest.filter (·.isUrgent least) = []) :
    (lineup.dispatch preemptivePriority).urgent least = lineup.urgent least := by
  cases holder : lineup.holder with
  | none => simp [dispatch, urgent, Option.filter, waiting, holder, dropped, nobody, Task.picked]
  | some tenure =>
      cases wins : preemptivePriority.overtakes front tenure.task with
      | false => simp [dispatch, urgent, waiting, holder, wins]
      | true =>
          have loser : tenure.task.isUrgent least = false := by
            refine Bool.eq_false_iff.mpr fun kept => ?_
            have before := Scheduler.precedes_of_overtakes wins
            simp [isUrgent_of_precedes before kept] at dropped
          have inserted := filter_insertSorted_of_dropped preemptivePriority.precedes loser rest
          simp [dispatch, urgent, Option.filter, waiting, holder, dropped, nobody, wins, loser,
            inserted]

theorem overtakes_of_isUrgent {front holder : Task} (isFront : front.isUrgent least = true)
    (isHolder : holder.isUrgent least = false) :
    preemptivePriority.overtakes front holder = true := by
  refine Bool.not_eq_false _ |>.mp fun loses => ?_
  have before : preemptivePriority.precedes holder front = true := by
    simpa [Scheduler.overtakes] using loses
  simp [isUrgent_of_precedes before isFront] at isHolder

theorem urgent_dispatch (ordered : lineup.Ordered preemptivePriority) :
    (lineup.dispatch preemptivePriority).urgent least =
      (lineup.urgent least).dispatch preemptivePriority := by
  cases waiting : lineup.waiting with
  | nil => simp [dispatch, urgent, waiting]
  | cons front rest =>
      have sorted := ordered rfl
      rw [waiting] at sorted
      obtain ⟨first, others⟩ := List.pairwise_cons.mp sorted
      cases isFront : front.isUrgent least with
      | false =>
          have nobody := filter_isUrgent_eq_nil first isFront
          have noneWaits : (lineup.urgent least).waiting = [] := by
            simp [urgent, waiting, isFront, nobody]
          rw [urgent_dispatch_of_dropped waiting isFront nobody, dispatch, noneWaits]
      | true =>
          cases holder : lineup.holder with
          | none => simp [dispatch, urgent, Option.filter, waiting, holder, isFront, Task.picked]
          | some tenure =>
              cases isHolder : tenure.task.isUrgent least with
              | true =>
                  have inserted := filter_insertSorted_of_kept (Scheduler.precedes_trans rfl)
                    isHolder others
                  cases wins : preemptivePriority.overtakes front tenure.task <;>
                    simp [dispatch, urgent, Option.filter, waiting, holder, isFront, isHolder, wins,
                      inserted]
              | false =>
                  have wins := overtakes_of_isUrgent isFront isHolder
                  have inserted := filter_insertSorted_of_dropped preemptivePriority.precedes
                    isHolder rest
                  simp [dispatch, urgent, Option.filter, waiting, holder, isFront, isHolder, wins,
                    inserted, Task.picked]

theorem urgent_work (lineup : Lineup) :
    (lineup.work preemptivePriority).urgent least =
      (lineup.urgent least).work preemptivePriority := by
  have endless (used : Nat) : preemptivePriority.usesUp used = false := rfl
  have samePriority (tenure : Tenure) :
      tenure.worked.task.isUrgent least = tenure.task.isUrgent least := rfl
  cases holder : lineup.holder with
  | none => simp [work, urgent, holder]
  | some tenure =>
      by_cases last : tenure.task.remaining = 1 <;>
        cases isHolder : tenure.task.isUrgent least <;>
          simp [work, urgent, Option.filter, holder, last, isHolder, endless, samePriority,
            Scheduler.reorder]

variable (least) (come : Nat → List Task)

theorem urgent_before (time : Nat) :
    (before preemptivePriority come time).urgent least =
      before preemptivePriority (fun time => (come time).filter (·.isUrgent least)) time := by
  induction time with
  | zero => rfl
  | succ time inductionHypothesis =>
      have ordered := Ordered.before preemptivePriority come time
      rw [before, urgent_work, assign, urgent_dispatch (ordered.gather (come time)),
        urgent_gather ordered, inductionHypothesis]
      rfl

/-- Without those that matter less, the others have the CPU when they have it with them. -/
theorem urgent_during (time : Nat) :
    (during preemptivePriority come time).urgent least =
      during preemptivePriority (fun time => (come time).filter (·.isUrgent least)) time := by
  have ordered := Ordered.before preemptivePriority come time
  rw [during, assign, urgent_dispatch (ordered.gather (come time)), urgent_gather ordered,
    urgent_before]
  rfl

end Lineup

end CpuScheduling
