import CpuScheduling.Proofs.Lineup.Basic

/-!
Line-ups whose holder stays.  Where nobody loses the CPU before it has completed, or gets it
back at once, and where those that come find the same places, a policy has the line-ups of
one that never takes the CPU away.
-/

namespace CpuScheduling

def Scheduler.isSteady : Scheduler → Bool
  | agingRoundRobin _ step => step = 0
  | _ => true

def Task.Unaged (task : Task) : Prop :=
  task.effectivePriority = task.priority

variable {scheduler plain : Scheduler} {come : Nat → List Task} {lineup other : Lineup}
  {task : Task} {tasks : List Task}

theorem Task.Unaged.picked_eq (unaged : task.Unaged) (scheduler : Scheduler) :
    task.picked scheduler = task := by
  cases scheduler with
  | agingRoundRobin quantum step =>
      cases task
      cases unaged
      rfl
  | _ => rfl

theorem Task.waited_of_isSteady (steady : scheduler.isSteady = true) (task : Task) :
    task.waited scheduler = task := by
  cases scheduler with
  | agingRoundRobin quantum step => exact if_pos (of_decide_eq_true steady)
  | _ => rfl

theorem Task.unaged_lasting (steady : scheduler.isSteady = true) :
    Task.Lasting scheduler Task.Unaged where
  picked _ unaged := (unaged.picked_eq scheduler).symm ▸ unaged
  waited task unaged := (task.waited_of_isSteady steady).symm ▸ unaged
  worked _ unaged _ := unaged

namespace Scheduler

theorem isSteady_of_not_preemptive (patient : plain.isPreemptive = false) :
    plain.isSteady = true := by
  cases plain with
  | fcfs | sjf | priority => rfl
  | _ => cases patient

theorem usesUp_of_not_preemptive (patient : plain.isPreemptive = false) (used : Nat) :
    plain.usesUp used = false := by
  cases plain with
  | fcfs | sjf | priority => rfl
  | _ => cases patient

theorem overtakes_of_not_preemptive (patient : plain.isPreemptive = false) (front holder : Task) :
    plain.overtakes front holder = false := by
  cases plain with
  | fcfs | sjf | priority => rfl
  | _ => cases patient

theorem reorder_of_isSteady {waiting : List Task} (steady : scheduler.isSteady = true)
    (ordered : scheduler.isRanked = true →
      waiting.Pairwise fun first second => scheduler.precedes first second) :
    scheduler.reorder waiting = waiting := by
  cases scheduler with
  | agingRoundRobin quantum step =>
      have same : waiting.map (·.waited (agingRoundRobin quantum step)) = waiting := by
        simp [Task.waited_of_isSteady steady]
      rw [reorder, same, sortByInsertion_of_pairwise (ordered rfl)]
  | _ => rfl

theorem criterion_le_worked (scheduler : Scheduler) (task : Task) :
    scheduler.criterion task ≤ scheduler.criterion task.worked := by
  have fewer : task.worked.remaining ≤ task.remaining := Nat.sub_le _ _
  cases scheduler <;> simp only [criterion, Task.worked] at fewer ⊢ <;> omega

theorem precedes_worked {first second : Task} (early : scheduler.precedes first second) :
    scheduler.precedes first.worked second := by
  cases ranked : scheduler.isRanked with
  | false => simp [not_precedes ranked] at early
  | true =>
      have order := (precedes_iff ranked).mp early
      have gains := scheduler.criterion_le_worked first
      have sameArrival : first.worked.arrival = first.arrival := rfl
      have sameId : first.worked.id = first.id := rfl
      refine (precedes_iff ranked).mpr ?_
      rw [sameArrival, sameId]
      omega

end Scheduler

namespace Lineup

@[simp]
theorem holder_joinAll (scheduler : Scheduler) (tasks : List Task) (lineup : Lineup) :
    (tasks.foldl (join scheduler) lineup).holder = lineup.holder := by
  induction tasks generalizing lineup with
  | nil => rfl
  | cons first rest inductionHypothesis => exact inductionHypothesis (lineup.join scheduler first)

theorem mem_waiting_joinAll :
    task ∈ (tasks.foldl (join scheduler) lineup).waiting ↔ task ∈ tasks ∨ task ∈ lineup.waiting := by
  induction tasks generalizing lineup with
  | nil => simp
  | cons first rest inductionHypothesis =>
      rw [List.foldl_cons, inductionHypothesis, join, mem_insertSorted, List.mem_cons, ← or_assoc,
        or_comm (a := task = first)]

theorem joinAll_congr
    (present : ∀ task ∈ tasks, ∀ other ∈ lineup.waiting,
      scheduler.precedes task other = plain.precedes task other)
    (together : tasks.Pairwise fun early late =>
      scheduler.precedes late early = plain.precedes late early) :
    tasks.foldl (join scheduler) lineup = tasks.foldl (join plain) lineup := by
  induction tasks generalizing lineup with
  | nil => rfl
  | cons first rest inductionHypothesis =>
      obtain ⟨afterFirst, others⟩ := List.pairwise_cons.mp together
      have joins : lineup.join scheduler first = lineup.join plain first := by
        rw [join, join, insertSorted_congr (present first List.mem_cons_self)]
      rw [List.foldl_cons, List.foldl_cons, joins]
      refine inductionHypothesis (fun task isLater other waits => ?_) others
      rcases mem_insertSorted.mp waits with rfl | earlier
      · exact afterFirst task isLater
      · exact present task (List.mem_cons_of_mem first isLater) other earlier

/-- The same tasks in the same places, whatever the holders have used of their slices. -/
structure Alike (lineup other : Lineup) : Prop where
  holder : lineup.holder.map (·.task) = other.holder.map (·.task)
  waiting : lineup.waiting = other.waiting

namespace Alike

theorem refl (lineup : Lineup) : lineup.Alike lineup :=
  ⟨rfl, rfl⟩

theorem trans {third : Lineup} (first : lineup.Alike other) (second : other.Alike third) :
    lineup.Alike third :=
  ⟨first.holder.trans second.holder, first.waiting.trans second.waiting⟩

theorem idle (alike : lineup.Alike other) (idle : lineup.holder = none) : other.holder = none :=
  Option.map_eq_none_iff.mp (alike.holder.symm.trans (congrArg _ idle))

theorem exists_holder (alike : lineup.Alike other) {tenure : Tenure}
    (isHolder : lineup.holder = some tenure) :
    ∃ otherTenure, other.holder = some otherTenure ∧ otherTenure.task = tenure.task :=
  Option.map_eq_some_iff.mp (alike.holder.symm.trans (congrArg _ isHolder))

theorem occupant (alike : lineup.Alike other) : lineup.occupant = other.occupant := by
  have ids := congrArg (Option.map Task.id) alike.holder
  rwa [Option.map_map, Option.map_map] at ids

theorem joinAll (alike : lineup.Alike other) (tasks : List Task) :
    (tasks.foldl (join scheduler) lineup).Alike (tasks.foldl (join scheduler) other) := by
  induction tasks generalizing lineup other with
  | nil => exact alike
  | cons first rest inductionHypothesis =>
      refine inductionHypothesis ⟨alike.holder, ?_⟩
      rw [join, join, alike.waiting]

theorem dispatch (alike : lineup.Alike other) (idle : lineup.holder = none)
    (unaged : lineup.Every Task.Unaged) :
    (lineup.dispatch scheduler).Alike (other.dispatch plain) := by
  have alsoIdle := alike.idle idle
  cases waiting : lineup.waiting with
  | nil => simpa [Lineup.dispatch, waiting, ← alike.waiting] using alike
  | cons front rest =>
      have isFront : front.Unaged := unaged.waiting front (by simp [waiting])
      have picked (scheduler : Scheduler) : front.picked scheduler = front :=
        isFront.picked_eq scheduler
      constructor <;> simp [Lineup.dispatch, waiting, ← alike.waiting, idle, alsoIdle, picked]

theorem work (alike : lineup.Alike other)
    (keeps : scheduler.reorder lineup.waiting = lineup.waiting)
    (alsoKeeps : plain.reorder other.waiting = other.waiting) :
    (lineup.work scheduler).Alike (other.work plain) := by
  have waiting := alike.waiting
  cases holder : lineup.holder with
  | none => simpa [Lineup.work, holder, alike.idle holder] using alike
  | some tenure =>
      obtain ⟨otherTenure, otherHolder, same⟩ := alike.exists_holder holder
      simp only [Lineup.work, holder, otherHolder, same, keeps, alsoKeeps, ite_self]
      split
      · exact ⟨rfl, waiting⟩
      · refine ⟨?_, waiting⟩
        simp [Tenure.worked, same]

end Alike

/-- In a tick with which some tasks come, these find the places that a plain policy gives
them, and a holder keeps the CPU or gets it back at once. -/
structure Undisturbed (scheduler plain : Scheduler) (come : List Task) (lineup : Lineup) :
    Prop where
  joins : come.foldl (join scheduler) lineup = come.foldl (join plain) lineup
  stays : ∀ tenure, lineup.holder = some tenure →
    (lineup.assign scheduler come).Alike (come.foldl (join scheduler) lineup)

theorem assign_of_not_preemptive {tenure : Tenure} (patient : plain.isPreemptive = false)
    (isHolder : lineup.holder = some tenure) (tasks : List Task) :
    lineup.assign plain tasks = tasks.foldl (join plain) lineup := by
  rw [assign, gather, requeue_of_goesOn fun _ _ => Scheduler.usesUp_of_not_preemptive patient _]
  exact dispatch_of_holder ((holder_joinAll ..).trans isHolder) fun _ _ _ =>
    Scheduler.overtakes_of_not_preemptive patient _ _

theorem assign_of_idle (idle : lineup.holder = none) (tasks : List Task) :
    lineup.assign scheduler tasks = (tasks.foldl (join scheduler) lineup).dispatch scheduler := by
  rw [assign, gather, requeue_of_goesOn fun tenure isHolder => ?_]
  simp [idle] at isHolder

theorem Undisturbed.assign (undisturbed : lineup.Undisturbed scheduler plain tasks)
    (patient : plain.isPreemptive = false) (alike : lineup.Alike other)
    (unaged : lineup.Every Task.Unaged) (new : ∀ task ∈ tasks, task.Unaged) :
    (lineup.assign scheduler tasks).Alike (other.assign plain tasks) := by
  have joined : (tasks.foldl (join scheduler) lineup).Alike (tasks.foldl (join plain) other) := by
    rw [undisturbed.joins]
    exact alike.joinAll tasks
  cases holder : lineup.holder with
  | none =>
      rw [assign_of_idle holder, assign_of_idle (alike.idle holder)]
      exact joined.dispatch ((holder_joinAll ..).trans holder) (unaged.joinAll new)
  | some tenure =>
      obtain ⟨otherTenure, otherHolder, _⟩ := alike.exists_holder holder
      rw [assign_of_not_preemptive patient otherHolder]
      exact (undisturbed.stays tenure holder).trans joined

section Runs

variable (patient : plain.isPreemptive = false) (steady : scheduler.isSteady = true)
  (new : ∀ time, ∀ task ∈ come time, task.Unaged)
  (undisturbed : ∀ time,
    (before scheduler come time).Undisturbed scheduler plain (come time))

include patient steady new undisturbed

/-- Where no tick disturbs a holder, the policy decides as the plain one. -/
theorem alike_before (time : Nat) : (before scheduler come time).Alike (before plain come time) := by
  induction time with
  | zero => exact .refl _
  | succ time inductionHypothesis =>
      have unaged := Every.before (Task.unaged_lasting steady) new time
      have assigned := (undisturbed time).assign patient inductionHypothesis unaged (new time)
      have ordered := ((Ordered.before scheduler come time).gather (come time)).dispatch
      have alsoOrdered := ((Ordered.before plain come time).gather (come time)).dispatch
      exact assigned.work (Scheduler.reorder_of_isSteady steady ordered)
        (Scheduler.reorder_of_isSteady (Scheduler.isSteady_of_not_preemptive patient) alsoOrdered)

theorem occupant_of_undisturbed (time : Nat) :
    (during scheduler come time).occupant = (during plain come time).occupant :=
  ((undisturbed time).assign patient (alike_before patient steady new undisturbed time)
    (Every.before (Task.unaged_lasting steady) new time) (new time)).occupant

end Runs

def Led (scheduler : Scheduler) (lineup : Lineup) : Prop :=
  ∀ tenure, lineup.holder = some tenure →
    ∀ task ∈ lineup.waiting, scheduler.precedes tenure.task task

namespace Led

/-- A holder that stands before all others keeps the CPU, or gets it back as the one in front. -/
theorem alike (led : lineup.Led scheduler) {tenure : Tenure}
    (isHolder : lineup.holder = some tenure) (unaged : tenure.task.Unaged) :
    ((lineup.requeue scheduler).dispatch scheduler).Alike lineup := by
  have first := led tenure isHolder
  cases usedUp : scheduler.usesUp tenure.used with
  | true =>
      have inFront := insertSorted_of_precedes first
      constructor <;>
        simp [Lineup.requeue, Lineup.dispatch, isHolder, usedUp, inFront, unaged.picked_eq scheduler]
  | false =>
      have goesOn : lineup.requeue scheduler = lineup := by
        simp [Lineup.requeue, isHolder, usedUp]
      rw [goesOn, dispatch_of_holder isHolder fun front rest waiting => ?_]
      · exact .refl lineup
      · exact Scheduler.not_overtakes_of_precedes (first front (by simp [waiting]))

theorem dispatch (ordered : lineup.Ordered scheduler) (ranked : scheduler.isRanked = true)
    (idle : lineup.holder = none) (unaged : lineup.Every Task.Unaged) :
    (lineup.dispatch scheduler).Led scheduler := by
  intro tenure isHolder task waits
  cases waiting : lineup.waiting with
  | nil => simp [Lineup.dispatch, waiting, idle] at isHolder
  | cons front rest =>
      have sorted := ordered ranked
      rw [waiting] at sorted
      have isFront := unaged.waiting front (by simp [waiting])
      simp only [Lineup.dispatch, waiting, idle, Option.some.injEq] at isHolder waits
      rw [← isHolder, isFront.picked_eq]
      exact (List.pairwise_cons.mp sorted).1 task waits

theorem of_alike (led : other.Led scheduler) (alike : lineup.Alike other) :
    lineup.Led scheduler := by
  intro tenure isHolder task waits
  obtain ⟨otherTenure, otherHolder, same⟩ := alike.exists_holder isHolder
  rw [← same]
  exact led otherTenure otherHolder task (alike.waiting ▸ waits)

theorem work (led : lineup.Led scheduler)
    (keeps : scheduler.reorder lineup.waiting = lineup.waiting) :
    (lineup.work scheduler).Led scheduler := by
  intro tenure isHolder task waits
  cases holder : lineup.holder with
  | none => simp [Lineup.work, holder] at isHolder
  | some early =>
      simp only [Lineup.work, holder, keeps, ite_self] at isHolder waits
      split at isHolder
      next => cases isHolder
      next goesOn =>
        rw [if_neg goesOn] at waits
        cases isHolder
        exact Scheduler.precedes_worked (led early holder task waits)

end Led

/-- Where those that come leave the holder in front, it stands there until it has completed. -/
theorem led_before (ranked : scheduler.isRanked = true) (steady : scheduler.isSteady = true)
    (new : ∀ time, ∀ task ∈ come time, task.Unaged)
    (behind : ∀ time, (before scheduler come time).Led scheduler →
      ((come time).foldl (join scheduler) (before scheduler come time)).Led scheduler)
    (time : Nat) : (before scheduler come time).Led scheduler := by
  induction time with
  | zero => simp [Led, before]
  | succ time inductionHypothesis =>
      have unaged := Every.before (Task.unaged_lasting steady) new time
      have ordered := Ordered.before scheduler come time
      have led := behind time inductionHypothesis
      have assigned : (during scheduler come time).Led scheduler := by
        cases holder : (before scheduler come time).holder with
        | none =>
            rw [during, assign_of_idle holder]
            exact Led.dispatch ordered.joinAll ranked ((holder_joinAll ..).trans holder)
              (unaged.joinAll (new time))
        | some tenure =>
            exact led.of_alike (led.alike ((holder_joinAll ..).trans holder)
              (unaged.holder tenure holder))
      exact assigned.work
        (Scheduler.reorder_of_isSteady steady ((ordered.gather (come time)).dispatch))

/-- A holder that stands in front once others have come is not disturbed. -/
theorem Led.undisturbed (unaged : lineup.Every Task.Unaged)
    (led : (tasks.foldl (join scheduler) lineup).Led scheduler)
    (joins : tasks.foldl (join scheduler) lineup = tasks.foldl (join plain) lineup) :
    lineup.Undisturbed scheduler plain tasks where
  joins := joins
  stays tenure isHolder :=
    led.alike ((holder_joinAll ..).trans isHolder) (unaged.holder tenure isHolder)

end Lineup

end CpuScheduling
