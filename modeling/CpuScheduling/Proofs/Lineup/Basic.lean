import CpuScheduling.Scheduler
import CpuScheduling.SortedInsertion

/-!
Line-ups: who has the CPU and who waits for it, in the order in which they get it.
A line-up has no books, no checks and no heap, and knows only tasks that have
come and have work left.  What happens in a tick is a function of the line-up and of
the tasks that come with that tick.

Keys are exact here: a line-up tells apart what the ranks of the machine cannot.
-/

namespace CpuScheduling

/-- What a policy sees of a job that has arrived and has work left. -/
structure Task where
  id : Nat
  arrival : Nat
  remaining : Nat
  priority : Nat
  effectivePriority : Nat
  deriving DecidableEq

def Job.task (job : Job) : Task where
  id := job.id
  arrival := job.arrival
  remaining := job.remaining
  priority := job.priority
  effectivePriority := job.effectivePriority

namespace Task

def comesBefore (first second : Task) : Bool :=
  first.arrival < second.arrival || first.arrival = second.arrival && first.id ≤ second.id

theorem comesBefore_iff {first second : Task} :
    first.comesBefore second = true ↔
      first.arrival < second.arrival ∨
        first.arrival = second.arrival ∧ first.id ≤ second.id := by
  simp only [comesBefore, Bool.or_eq_true, Bool.and_eq_true, decide_eq_true_eq]

def picked (task : Task) : Scheduler → Task
  | .agingRoundRobin _ _ => { task with effectivePriority := task.priority }
  | _ => task

def waited (task : Task) : Scheduler → Task
  | .agingRoundRobin _ step =>
      if step = 0 then task
      else
        { task with effectivePriority := min (task.effectivePriority + step) (prioritySize - 1) }
  | _ => task

def worked (task : Task) : Task :=
  { task with remaining := task.remaining - 1 }

@[simp]
theorem id_picked (task : Task) (scheduler : Scheduler) : (task.picked scheduler).id = task.id := by
  cases scheduler <;> rfl

@[simp]
theorem id_waited (task : Task) (scheduler : Scheduler) : (task.waited scheduler).id = task.id := by
  cases scheduler with
  | agingRoundRobin quantum step =>
      simp only [waited]
      split <;> rfl
  | _ => rfl

end Task

namespace Scheduler

/-- The queue is in order of rank, not of admission. -/
def isRanked : Scheduler → Bool
  | fcfs | roundRobin _ => false
  | _ => true

/-- What a ranked queue goes by; the greatest comes first. -/
def criterion (scheduler : Scheduler) (task : Task) : Int :=
  match scheduler with
  | fcfs | roundRobin _ => 0
  | sjf | srtf => -task.remaining
  | priority | preemptivePriority => task.priority
  | agingRoundRobin _ _ => task.effectivePriority

/-- The first task may stand before the second one.  In order of admission nobody that
enters the queue stands before those that are in it. -/
def precedes (scheduler : Scheduler) (first second : Task) : Bool :=
  scheduler.isRanked &&
    (scheduler.criterion second < scheduler.criterion first ||
      scheduler.criterion first = scheduler.criterion second && first.comesBefore second)

def overtakes (scheduler : Scheduler) (front holder : Task) : Bool :=
  match scheduler with
  | srtf => front.remaining < holder.remaining
  | preemptivePriority => !scheduler.precedes holder front
  | _ => false

def usesUp (scheduler : Scheduler) (used : Nat) : Bool :=
  scheduler.quantum?.any fun quantum => quantum ≤ used

def reorder (scheduler : Scheduler) (waiting : List Task) : List Task :=
  match scheduler with
  | agingRoundRobin _ _ => sortByInsertion scheduler.precedes (waiting.map (·.waited scheduler))
  | _ => waiting

variable {scheduler : Scheduler} {first second third : Task}

theorem usesUp_iff {used : Nat} :
    scheduler.usesUp used = true ↔ ∃ quantum, scheduler.quantum? = some quantum ∧ quantum ≤ used := by
  simp [usesUp, Option.any_eq_true]

theorem precedes_iff (ranked : scheduler.isRanked = true) :
    scheduler.precedes first second = true ↔
      scheduler.criterion second < scheduler.criterion first ∨
        scheduler.criterion first = scheduler.criterion second ∧
          (first.arrival < second.arrival ∨
            first.arrival = second.arrival ∧ first.id ≤ second.id) := by
  simp only [precedes, ranked, Bool.true_and, Bool.or_eq_true, Bool.and_eq_true, decide_eq_true_eq,
    Task.comesBefore_iff]

theorem not_precedes (unranked : scheduler.isRanked = false) :
    scheduler.precedes first second = false := by
  simp [precedes, unranked]

theorem precedes_total (ranked : scheduler.isRanked = true) (first second : Task) :
    scheduler.precedes first second ∨ scheduler.precedes second first := by
  simp only [precedes_iff ranked]
  omega

theorem precedes_trans (ranked : scheduler.isRanked = true) (first second third : Task) :
    scheduler.precedes first second → scheduler.precedes second third →
      scheduler.precedes first third := by
  simp only [precedes_iff ranked]
  omega

theorem not_overtakes (unranked : scheduler.isRanked = false) :
    scheduler.overtakes first second = false := by
  cases scheduler with
  | fcfs | roundRobin => rfl
  | _ => cases unranked

theorem not_overtakes_of_precedes (early : scheduler.precedes first second) :
    scheduler.overtakes second first = false := by
  cases scheduler with
  | srtf =>
      have fewer := (precedes_iff rfl).mp early
      simp only [criterion] at fewer
      simp only [overtakes, decide_eq_false_iff_not]
      omega
  | preemptivePriority => simp [overtakes, early]
  | _ => rfl

theorem precedes_of_overtakes (wins : scheduler.overtakes first second) :
    scheduler.precedes first second := by
  cases scheduler with
  | srtf =>
      simp only [overtakes, decide_eq_true_eq] at wins
      refine (precedes_iff rfl).mpr (.inl ?_)
      simp only [criterion]
      omega
  | preemptivePriority =>
      have notBefore : ¬precedes .preemptivePriority second first = true := by
        simpa [overtakes] using wins
      exact (precedes_total rfl first second).resolve_right notBefore
  | _ => cases wins

end Scheduler

structure Tenure where
  task : Task
  used : Nat := 0
  deriving DecidableEq

def Tenure.worked (tenure : Tenure) : Tenure where
  task := tenure.task.worked
  used := tenure.used + 1

structure Lineup where
  holder : Option Tenure := none
  waiting : List Task := []
  deriving DecidableEq

namespace Lineup

variable (scheduler : Scheduler)

def occupant (lineup : Lineup) : Option Nat :=
  lineup.holder.map (·.task.id)

def join (lineup : Lineup) (task : Task) : Lineup :=
  { lineup with waiting := insertSorted scheduler.precedes task lineup.waiting }

def requeue (lineup : Lineup) : Lineup :=
  match lineup.holder with
  | none => lineup
  | some tenure =>
      if scheduler.usesUp tenure.used then
        { waiting := insertSorted scheduler.precedes tenure.task lineup.waiting }
      else lineup

/-- The task in front gets a CPU that nobody has, or overtakes its holder. -/
def dispatch (lineup : Lineup) : Lineup :=
  match lineup.waiting with
  | [] => lineup
  | front :: rest =>
      match lineup.holder with
      | none => { holder := some { task := front.picked scheduler }, waiting := rest }
      | some tenure =>
          if scheduler.overtakes front tenure.task then
            { holder := some { task := front }
              waiting := insertSorted scheduler.precedes tenure.task rest }
          else lineup

/-- Those that come with a tick join before the holder's slice is looked at. -/
def gather (lineup : Lineup) (come : List Task) : Lineup :=
  requeue scheduler (come.foldl (join scheduler) lineup)

/-- Who gets a tick with which some tasks come. -/
def assign (lineup : Lineup) (come : List Task) : Lineup :=
  dispatch scheduler (gather scheduler lineup come)

/-- The tick is spent.  A slice ends with the task or with the quantum. -/
def work (lineup : Lineup) : Lineup :=
  match lineup.holder with
  | none => lineup
  | some tenure =>
      if tenure.task.remaining = 1 then { waiting := scheduler.reorder lineup.waiting }
      else
        { holder := some tenure.worked
          waiting :=
            if scheduler.usesUp (tenure.used + 1) then scheduler.reorder lineup.waiting
            else lineup.waiting }

variable (come : Nat → List Task)

/-- The line-up at a time, before anybody comes then. -/
def before : Nat → Lineup
  | 0 => {}
  | time + 1 => work scheduler (assign scheduler (before time) (come time))

/-- The line-up in a tick: its holder gets the tick. -/
def during (time : Nat) : Lineup :=
  assign scheduler (before scheduler come time) (come time)

theorem before_succ (time : Nat) :
    before scheduler come (time + 1) = work scheduler (during scheduler come time) := rfl

end Lineup

variable {scheduler : Scheduler} {come : Nat → List Task} {lineup : Lineup} {task : Task}

structure Task.Lasting (scheduler : Scheduler) (holds : Task → Prop) : Prop where
  picked : ∀ task, holds task → holds (task.picked scheduler)
  waited : ∀ task, holds task → holds (task.waited scheduler)
  worked : ∀ task, holds task → task.remaining ≠ 1 → holds task.worked

theorem Task.Lasting.and {first second : Task → Prop} (lasting : Task.Lasting scheduler first)
    (alsoLasting : Task.Lasting scheduler second) :
    Task.Lasting scheduler fun task => first task ∧ second task where
  picked task holds := ⟨lasting.picked task holds.1, alsoLasting.picked task holds.2⟩
  waited task holds := ⟨lasting.waited task holds.1, alsoLasting.waited task holds.2⟩
  worked task holds goesOn :=
    ⟨lasting.worked task holds.1 goesOn, alsoLasting.worked task holds.2 goesOn⟩

theorem Scheduler.exists_of_mem_reorder {waiting : List Task}
    (member : task ∈ scheduler.reorder waiting) :
    ∃ early ∈ waiting, task = early.waited scheduler := by
  cases scheduler with
  | agingRoundRobin quantum step =>
      obtain ⟨early, isEarly, same⟩ := List.mem_map.mp (mem_sortByInsertion.mp member)
      exact ⟨early, isEarly, same.symm⟩
  | _ => exact ⟨task, member, rfl⟩

theorem Scheduler.map_id_reorder (scheduler : Scheduler) (waiting : List Task) :
    ((scheduler.reorder waiting).map (·.id)).Perm (waiting.map (·.id)) := by
  cases scheduler with
  | agingRoundRobin quantum step =>
      have sorted := (sortByInsertion_perm (agingRoundRobin quantum step).precedes
        (waiting.map (·.waited (agingRoundRobin quantum step)))).map (·.id)
      simpa [reorder, Function.comp_def] using sorted
  | _ => exact .refl _

namespace Lineup

theorem before_add_of_empty {time ticks : Nat} (empty : before scheduler come time = {})
    (nobody : ∀ later, time ≤ later → later < time + ticks → come later = []) :
    before scheduler come (time + ticks) = {} := by
  induction ticks with
  | zero => exact empty
  | succ ticks inductionHypothesis =>
      have stays := inductionHypothesis fun later fromNow toEnd => nobody later fromNow (by omega)
      rw [← Nat.add_assoc, before_succ, during, stays, nobody (time + ticks) (by omega) (by omega)]
      rfl

structure Every (holds : Task → Prop) (lineup : Lineup) : Prop where
  holder : ∀ tenure, lineup.holder = some tenure → holds tenure.task
  waiting : ∀ task ∈ lineup.waiting, holds task

namespace Every

variable {holds : Task → Prop}

theorem imp {other : Task → Prop} (every : lineup.Every holds)
    (implies : ∀ task, holds task → other task) : lineup.Every other where
  holder tenure isHolder := implies tenure.task (every.holder tenure isHolder)
  waiting task waits := implies task (every.waiting task waits)

theorem join (every : lineup.Every holds) (new : holds task) :
    (lineup.join scheduler task).Every holds where
  holder := every.holder
  waiting other member := by
    rcases mem_insertSorted.mp member with rfl | waits
    · exact new
    · exact every.waiting other waits

theorem joinAll {tasks : List Task} (every : lineup.Every holds) (new : ∀ task ∈ tasks, holds task) :
    (tasks.foldl (Lineup.join scheduler) lineup).Every holds := by
  induction tasks generalizing lineup with
  | nil => exact every
  | cons first rest inductionHypothesis =>
      exact inductionHypothesis (every.join (new first List.mem_cons_self))
        fun task member => new task (List.mem_cons_of_mem first member)

theorem requeue (every : lineup.Every holds) : (lineup.requeue scheduler).Every holds := by
  unfold Lineup.requeue
  split
  next => exact every
  next tenure isHolder =>
    split
    next =>
      refine ⟨by simp, fun task member => ?_⟩
      rcases mem_insertSorted.mp member with rfl | waits
      · exact every.holder tenure isHolder
      · exact every.waiting task waits
    next => exact every

theorem gather {tasks : List Task} (every : lineup.Every holds)
    (new : ∀ task ∈ tasks, holds task) : (lineup.gather scheduler tasks).Every holds :=
  (every.joinAll new).requeue

theorem dispatch (every : lineup.Every holds) (lasting : Task.Lasting scheduler holds) :
    (lineup.dispatch scheduler).Every holds := by
  unfold Lineup.dispatch
  split
  next => exact every
  next front rest waiting =>
    have isFront : holds front := every.waiting front (by simp [waiting])
    have others : ∀ task ∈ rest, holds task := fun task member =>
      every.waiting task (by simp [waiting, member])
    split
    next =>
      refine ⟨?_, others⟩
      intro tenure isHolder
      cases isHolder
      exact lasting.picked front isFront
    next tenure isHolder =>
      split
      next =>
        refine ⟨?_, fun task member => ?_⟩
        · intro other isOther
          cases isOther
          exact isFront
        · rcases mem_insertSorted.mp member with rfl | waits
          · exact every.holder tenure isHolder
          · exact others task waits
      next => exact every

theorem reorder {waiting : List Task} (lasting : Task.Lasting scheduler holds)
    (all : ∀ task ∈ waiting, holds task) : ∀ task ∈ scheduler.reorder waiting, holds task := by
  intro task member
  obtain ⟨early, isEarly, rfl⟩ := Scheduler.exists_of_mem_reorder member
  exact lasting.waited early (all early isEarly)

theorem work (every : lineup.Every holds) (lasting : Task.Lasting scheduler holds) :
    (lineup.work scheduler).Every holds := by
  have reordered := reorder lasting every.waiting
  unfold Lineup.work
  split
  next => exact every
  next tenure isHolder =>
    split
    next => exact ⟨by simp, reordered⟩
    next goesOn =>
      refine ⟨?_, fun task member => ?_⟩
      · intro other isOther
        cases isOther
        exact lasting.worked tenure.task (every.holder tenure isHolder) goesOn
      · split at member
        · exact reordered task member
        · exact every.waiting task member

theorem before (lasting : Task.Lasting scheduler holds)
    (new : ∀ time, ∀ task ∈ come time, holds task) (time : Nat) :
    (before scheduler come time).Every holds := by
  induction time with
  | zero => exact ⟨by simp [Lineup.before], by simp [Lineup.before]⟩
  | succ time inductionHypothesis =>
      exact ((inductionHypothesis.gather (new time)).dispatch lasting).work lasting

theorem during (lasting : Task.Lasting scheduler holds)
    (new : ∀ time, ∀ task ∈ come time, holds task) (time : Nat) :
    (during scheduler come time).Every holds :=
  ((before lasting new time).gather (new time)).dispatch lasting

end Every

def Ordered (scheduler : Scheduler) (lineup : Lineup) : Prop :=
  scheduler.isRanked = true →
    lineup.waiting.Pairwise fun first second => scheduler.precedes first second

theorem pairwise_insert {waiting : List Task} (ranked : scheduler.isRanked = true)
    (ordered : waiting.Pairwise fun first second => scheduler.precedes first second) :
    (insertSorted scheduler.precedes task waiting).Pairwise
      fun first second => scheduler.precedes first second :=
  pairwise_insertSorted (Scheduler.precedes_total ranked) (Scheduler.precedes_trans ranked) ordered

namespace Ordered

theorem join (ordered : lineup.Ordered scheduler) : (lineup.join scheduler task).Ordered scheduler :=
  fun ranked => pairwise_insert ranked (ordered ranked)

theorem joinAll {tasks : List Task} (ordered : lineup.Ordered scheduler) :
    (tasks.foldl (Lineup.join scheduler) lineup).Ordered scheduler := by
  induction tasks generalizing lineup with
  | nil => exact ordered
  | cons first rest inductionHypothesis => exact inductionHypothesis ordered.join

theorem requeue (ordered : lineup.Ordered scheduler) :
    (lineup.requeue scheduler).Ordered scheduler := by
  unfold Lineup.requeue
  split
  next => exact ordered
  next tenure _ =>
    split
    next => exact fun ranked => pairwise_insert ranked (ordered ranked)
    next => exact ordered

theorem gather (ordered : lineup.Ordered scheduler) (tasks : List Task) :
    (lineup.gather scheduler tasks).Ordered scheduler :=
  ordered.joinAll.requeue

theorem dispatch (ordered : lineup.Ordered scheduler) :
    (lineup.dispatch scheduler).Ordered scheduler := by
  unfold Lineup.dispatch
  split
  next => exact ordered
  next front rest waiting =>
    have others (ranked : scheduler.isRanked = true) :
        rest.Pairwise fun first second => scheduler.precedes first second := by
      have whole := ordered ranked
      rw [waiting] at whole
      exact (List.pairwise_cons.mp whole).2
    split
    next => exact others
    next tenure _ =>
      split
      next => exact fun ranked => pairwise_insert ranked (others ranked)
      next => exact ordered

theorem reorder {waiting : List Task} (ranked : scheduler.isRanked = true)
    (ordered : waiting.Pairwise fun first second => scheduler.precedes first second) :
    (scheduler.reorder waiting).Pairwise fun first second => scheduler.precedes first second := by
  cases scheduler with
  | agingRoundRobin quantum step =>
      exact pairwise_sortByInsertion (Scheduler.precedes_total ranked)
        (Scheduler.precedes_trans ranked) _
  | _ => exact ordered

theorem work (ordered : lineup.Ordered scheduler) : (lineup.work scheduler).Ordered scheduler := by
  intro ranked
  have reordered := reorder ranked (ordered ranked)
  unfold Lineup.work
  split
  next => exact ordered ranked
  next tenure _ =>
    split
    next => exact reordered
    next =>
      dsimp only
      split
      · exact reordered
      · exact ordered ranked

theorem before (scheduler : Scheduler) (come : Nat → List Task) (time : Nat) :
    (before scheduler come time).Ordered scheduler := by
  induction time with
  | zero => exact fun _ => .nil
  | succ time inductionHypothesis =>
      exact (inductionHypothesis.gather (come time)).dispatch.work

end Ordered

/-- Nothing is left to decide in a tick: the CPU is given away if anybody wants it, to a
holder whose slice goes on and whom nobody overtakes. -/
structure Quiet (scheduler : Scheduler) (lineup : Lineup) : Prop where
  idle : lineup.holder = none → lineup.waiting = []
  slice : ∀ tenure, lineup.holder = some tenure → scheduler.usesUp tenure.used = false
  front : ∀ tenure front rest, lineup.holder = some tenure → lineup.waiting = front :: rest →
    scheduler.overtakes front tenure.task = false

theorem requeue_of_goesOn (goesOn : ∀ tenure, lineup.holder = some tenure →
    scheduler.usesUp tenure.used = false) : lineup.requeue scheduler = lineup := by
  unfold requeue
  split
  next => rfl
  next tenure isHolder => simp [goesOn tenure isHolder]

theorem dispatch_of_holder {tenure : Tenure} (isHolder : lineup.holder = some tenure)
    (stays : ∀ front rest, lineup.waiting = front :: rest →
      scheduler.overtakes front tenure.task = false) : lineup.dispatch scheduler = lineup := by
  unfold dispatch
  split
  next => rfl
  next front rest waiting => simp [isHolder, stays front rest waiting]

theorem Quiet.assign_nil (quiet : lineup.Quiet scheduler) : lineup.assign scheduler [] = lineup := by
  rw [assign, gather, List.foldl_nil, requeue_of_goesOn quiet.slice]
  cases isHolder : lineup.holder with
  | none => simp [dispatch, quiet.idle isHolder]
  | some tenure =>
      exact dispatch_of_holder isHolder fun front rest =>
        quiet.front tenure front rest isHolder

theorem requeue_slice (lineup : Lineup) :
    ∀ tenure, (lineup.requeue scheduler).holder = some tenure →
      scheduler.usesUp tenure.used = false := by
  intro other isOther
  unfold requeue at isOther
  split at isOther
  next nobody => simp [nobody] at isOther
  next tenure isHolder =>
    split at isOther
    next => cases isOther
    next goesOn =>
      cases isHolder.symm.trans isOther
      simpa using goesOn

/-- A dispatch leaves nothing to decide. -/
theorem Ordered.quiet (ordered : lineup.Ordered scheduler) (slices : scheduler.usesUp 0 = false)
    (inSlice : ∀ tenure, lineup.holder = some tenure → scheduler.usesUp tenure.used = false) :
    (lineup.dispatch scheduler).Quiet scheduler := by
  have stays {front other : Task} (ranked : scheduler.isRanked = true → scheduler.precedes front other) :
      scheduler.overtakes other front = false := by
    cases isRanked : scheduler.isRanked with
    | true => exact Scheduler.not_overtakes_of_precedes (ranked isRanked)
    | false => exact Scheduler.not_overtakes isRanked
  unfold Lineup.dispatch
  split
  next nobody => exact ⟨fun _ => nobody, inSlice, by simp [nobody]⟩
  next front rest waiting =>
    have first (ranked : scheduler.isRanked = true) : ∀ other ∈ rest, scheduler.precedes front other := by
      have whole := ordered ranked
      rw [waiting] at whole
      exact (List.pairwise_cons.mp whole).1
    split
    next =>
      refine ⟨by simp, by simpa using slices, ?_⟩
      rintro tenure next others ⟨⟩ rfl
      have none : scheduler.overtakes next front = false :=
        stays fun ranked => first ranked next List.mem_cons_self
      cases scheduler <;> exact none
    next tenure isHolder =>
      split
      next wins =>
        refine ⟨by simp, by simpa using slices, ?_⟩
        rintro other next others ⟨⟩ inserted
        refine stays fun ranked => ?_
        have listed : insertSorted scheduler.precedes tenure.task rest = next :: others := inserted
        have member : next ∈ insertSorted scheduler.precedes tenure.task rest := by
          rw [listed]
          exact List.mem_cons_self
        rcases mem_insertSorted.mp member with rfl | waits
        · exact Scheduler.precedes_of_overtakes wins
        · exact first ranked next waits
      next loses =>
        refine ⟨by simp [isHolder], inSlice, ?_⟩
        intro other next others isOther isNext
        cases isHolder.symm.trans isOther
        cases waiting.symm.trans isNext
        simpa using loses

theorem quiet_during (slices : scheduler.usesUp 0 = false) (come : Nat → List Task) (time : Nat) :
    (during scheduler come time).Quiet scheduler :=
  ((Ordered.before scheduler come time).gather (come time)).quiet slices (requeue_slice _)

end Lineup

end CpuScheduling
