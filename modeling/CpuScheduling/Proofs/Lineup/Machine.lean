import CpuScheduling.Proofs.Kernel.Ranks
import CpuScheduling.Proofs.Lineup.Basic

/-!
A machine shows a line-up: the same task is on the CPU, as far in its slice, the same
tasks wait, and the queue picks the one that stands in front.  Each phase of a tick
does to the machine what it does to the line-up.

Ranks saturate and line-ups do not, but of two jobs that a clock can serve at most one
has more left than a rank can tell.
-/

namespace CpuScheduling

def Task.Fits (task : Task) : Prop :=
  task.priority < prioritySize ∧ task.effectivePriority < prioritySize

theorem Task.fits_lasting (scheduler : Scheduler) : Task.Lasting scheduler Task.Fits where
  picked task fits := by
    cases scheduler with
    | agingRoundRobin => exact ⟨fits.1, fits.1⟩
    | _ => exact fits
  waited task fits := by
    cases scheduler with
    | agingRoundRobin quantum step =>
        simp only [Task.waited]
        split
        · exact fits
        · exact ⟨fits.1, Nat.lt_of_le_of_lt (Nat.min_le_right _ _) (by decide)⟩
    | _ => exact fits
  worked _ fits _ := fits

namespace Scheduler

variable {scheduler : Scheduler} {first second : Job}

/-- Below the total that a clock can show, ranks tell apart what a line-up does. -/
theorem rank_lt_iff (ranked : scheduler.isRanked = true) (different : first.id ≠ second.id)
    (total : first.remaining + second.remaining < wordSize) (fits : first.task.Fits)
    (otherFits : second.task.Fits) :
    scheduler.rank second < scheduler.rank first ↔ scheduler.precedes first.task second.task := by
  simp only [Task.Fits, prioritySize, UInt32.size, Job.task] at fits otherFits
  simp only [wordSize, UInt64.size] at total
  rw [precedes_iff ranked, Rank.lt_iff]
  cases scheduler with
  | fcfs | roundRobin => cases ranked
  | _ =>
      simp only [rank, Rank.lowestFirst, Rank.highestFirst, criterion, Job.task]
      omega

theorem displaces_eq (different : first.id ≠ second.id)
    (total : first.remaining + second.remaining < wordSize) (fits : first.task.Fits)
    (otherFits : second.task.Fits) :
    scheduler.displaces first second = scheduler.overtakes first.task second.task := by
  cases scheduler with
  | preemptivePriority =>
      have sameOrder : rank .preemptivePriority first < rank .preemptivePriority second ↔
          precedes .preemptivePriority second.task first.task :=
        rank_lt_iff rfl (Ne.symm different) (Nat.add_comm _ _ ▸ total) otherFits fits
      rw [Bool.eq_iff_iff]
      simp only [displaces, overtakes, decide_eq_true_eq, Bool.not_eq_true', ← Bool.not_eq_true,
        ← sameOrder]
      constructor
      · exact fun lower upper => Rank.lt_asymm upper lower
      · intro notLower
        by_contra notUpper
        exact different (congrArg Rank.id (Rank.eq_of_not_lt_of_not_lt notLower notUpper))
  | srtf => rfl
  | _ => rfl

theorem task_restored (scheduler : Scheduler) (job : Job) :
    (scheduler.restored job).task = job.task.picked scheduler := by
  cases scheduler <;> rfl

theorem task_afterSlice (scheduler : Scheduler) (job : Job) :
    (scheduler.afterSlice job).task = job.task.waited scheduler := by
  cases scheduler with
  | agingRoundRobin quantum step =>
      simp only [afterSlice, Task.waited]
      split <;> rfl
  | _ => rfl

structure Queues (scheduler : Scheduler) (waiting : List Task) (ready : ReadyQueue) : Prop where
  listed : (waiting.map (·.id)).Perm ready.ids
  admission : scheduler.isRanked = false → ready = .fifo (waiting.map (·.id))

namespace Queues

variable {waiting : List Task} {ready pushed : ReadyQueue} {task : Task} {rank : Rank}

theorem push (queues : scheduler.Queues waiting ready)
    (entered : ready.push task.id rank = .ok pushed) :
    scheduler.Queues (insertSorted scheduler.precedes task waiting) pushed where
  listed := by
    have inserted := (insertSorted_perm scheduler.precedes task waiting).map (·.id)
    exact inserted.trans ((queues.listed.cons task.id).trans (ReadyQueue.ids_push_perm entered).symm)
  admission unranked := by
    rw [queues.admission unranked] at entered
    cases entered
    rw [insertSorted_of_not_precedes fun other _ => by simp [not_precedes unranked], List.map_append]
    rfl

theorem tail (queues : scheduler.Queues (task :: waiting) ready)
    (picked : ready.peek = some task.id) : scheduler.Queues waiting ready.tail where
  listed := by
    have left := ReadyQueue.cons_ids_tail_perm picked
    exact (queues.listed.trans left.symm).cons_inv
  admission unranked := by
    rw [queues.admission unranked]
    rfl

end Queues

end Scheduler

namespace Machine

variable {workload : List Spec} {scheduler : Scheduler} {machine next : Machine} {lineup : Lineup}
  {id clock : Nat} {old job : Job} {task : Task}

def task? (machine : Machine) (id : Nat) : Option Task :=
  (machine.job? id).map Job.task

theorem task?_of_job? (present : machine.job? id = some job) : machine.task? id = some job.task := by
  rw [task?, present, Option.map_some]

theorem task?_put (present : machine.job? id = some old) (job : Job) (other : Nat) :
    (machine.put id job).task? other = if other = id then some job.task else machine.task? other := by
  simp only [task?, job?_put present]
  split <;> rfl

theorem task?_put_same (present : machine.job? id = some old) (job : Job)
    (same : job.task = old.task) (other : Nat) : (machine.put id job).task? other = machine.task? other := by
  rw [task?_put present]
  split
  next here => rw [here, same, task?_of_job? present]
  next => rfl

structure Shows (scheduler : Scheduler) (lineup : Lineup) (machine : Machine) : Prop where
  occupant : machine.cpu.current = lineup.occupant
  slice : ∀ tenure, lineup.holder = some tenure → machine.cpu.sliceUsed = tenure.used ∧
    machine.cpu.sliceExpired = scheduler.usesUp tenure.used
  known : lineup.Every fun task => machine.task? task.id = some task
  queue : scheduler.Queues lineup.waiting machine.ready

theorem shows_empty (idle : machine.cpu.current = none) (empty : machine.ready.ids = [])
    (admission : scheduler.isRanked = false → machine.ready = .fifo []) :
    machine.Shows scheduler {} where
  occupant := idle
  slice := by simp
  known := ⟨by simp, by simp⟩
  queue := ⟨empty ▸ .refl _, admission⟩

/-- Of no two jobs more is left than a clock can show. -/
def Servable (machine : Machine) : Prop :=
  ∀ first second job other, first ≠ second → machine.job? first = some job →
    machine.job? second = some other → job.remaining + other.remaining < wordSize

namespace Shows

variable (shows : machine.Shows scheduler lineup)

include shows

theorem exists_job (waits : task ∈ lineup.waiting) :
    ∃ job, machine.job? task.id = some job ∧ job.task = task :=
  Option.map_eq_some_iff.mp (shows.known.waiting task waits)

theorem exists_holder {tenure : Tenure} (isHolder : lineup.holder = some tenure) :
    machine.cpu.current = some tenure.task.id ∧
      ∃ job, machine.job? tenure.task.id = some job ∧ job.task = tenure.task := by
  refine ⟨?_, Option.map_eq_some_iff.mp (shows.known.holder tenure isHolder)⟩
  rw [shows.occupant, Lineup.occupant, isHolder, Option.map_some]

theorem exists_tenure (current : machine.cpu.current = some id)
    (present : machine.job? id = some job) :
    ∃ tenure, lineup.holder = some tenure ∧ tenure.task = job.task ∧ tenure.task.id = id := by
  rw [shows.occupant, Lineup.occupant, Option.map_eq_some_iff] at current
  obtain ⟨tenure, isHolder, rfl⟩ := current
  have isTask := shows.known.holder tenure isHolder
  rw [task?_of_job? present, Option.some.injEq] at isTask
  exact ⟨tenure, isHolder, isTask.symm, rfl⟩

theorem holder_eq_none (idle : machine.cpu.current = none) : lineup.holder = none := by
  rw [shows.occupant, Lineup.occupant, Option.map_eq_none_iff] at idle
  exact idle

theorem eq_empty (idle : machine.cpu.current = none) (empty : machine.ready.ids = []) :
    lineup = {} := by
  have nobody := shows.holder_eq_none idle
  have listed := shows.queue.listed
  rw [empty] at listed
  cases lineup with
  | mk holder waiting =>
      cases nobody
      cases List.map_eq_nil_iff.mp listed.eq_nil
      rfl

theorem mem_ids (waits : task ∈ lineup.waiting) : task.id ∈ machine.ready.ids :=
  shows.queue.listed.mem_iff.mp (List.mem_map_of_mem waits)

/-- The queue picks the task in front. -/
theorem peek (ordered : lineup.Ordered scheduler) (fits : lineup.Every Task.Fits)
    (fresh : scheduler.isRanked = true → machine.FreshRanks scheduler)
    (servable : machine.Servable) :
    machine.ready.peek = lineup.waiting.head?.map (·.id) := by
  cases ranked : scheduler.isRanked with
  | false =>
      rw [shows.queue.admission ranked, ReadyQueue.peek, List.head?_map]
  | true =>
      have listed := shows.queue.listed
      cases waiting : lineup.waiting with
      | nil =>
          rw [waiting, List.map_nil] at listed
          exact ReadyQueue.peek_eq_none_iff.mpr listed.symm.eq_nil
      | cons front rest =>
          have isFront : front ∈ lineup.waiting := by simp [waiting]
          have inOrder := ordered ranked
          rw [waiting] at listed inOrder
          cases picked : machine.ready.peek with
          | none =>
              rw [ReadyQueue.peek_eq_none_iff.mp picked] at listed
              cases listed.eq_nil
          | some id =>
              have queued := ReadyQueue.mem_ids_of_peek picked
              obtain ⟨task, member, rfl⟩ := List.mem_map.mp (listed.mem_iff.mpr queued)
              rcases List.mem_cons.mp member with rfl | later
              · rfl
              · by_contra different
                have elsewhere : front.id ≠ task.id := by simpa [eq_comm] using different
                have isTask : task ∈ lineup.waiting := by simp [waiting, later]
                obtain ⟨frontJob, frontPresent, frontTask⟩ := shows.exists_job isFront
                obtain ⟨job, present, jobTask⟩ := shows.exists_job isTask
                have frontFits := fits.waiting front isFront
                have taskFits := fits.waiting task isTask
                have early := (List.pairwise_cons.mp inOrder).1 task later
                rw [← frontTask, ← jobTask] at elsewhere early
                rw [← frontTask] at frontFits
                rw [← jobTask] at taskFits
                have total := servable _ _ _ _ (by rwa [← frontTask, ← jobTask]) frontPresent
                  present
                refine (fresh ranked).not_rank_lt picked present (shows.mem_ids isFront)
                  frontPresent ?_
                exact (Scheduler.rank_lt_iff ranked elsewhere total frontFits taskFits).mpr early

theorem of_same (tasks : ∀ id, next.task? id = machine.task? id) (cpu : next.cpu = machine.cpu)
    (ready : next.ready = machine.ready) : next.Shows scheduler lineup where
  occupant := cpu ▸ shows.occupant
  slice := cpu ▸ shows.slice
  known := ⟨fun tenure isHolder => (tasks _).trans (shows.known.holder tenure isHolder),
    fun task waits => (tasks _).trans (shows.known.waiting task waits)⟩
  queue := ready ▸ shows.queue

theorem requeue (requeues : scheduler.requeueExpired machine = .ok next) :
    next.Shows scheduler (lineup.requeue scheduler) := by
  rcases Scheduler.requeueExpired_ok requeues with
    ⟨stays, rfl⟩ | ⟨id, job, ready, current, expired, present, _, entered, rfl⟩
  · have same : lineup.requeue scheduler = lineup := by
      unfold Lineup.requeue
      split
      next => rfl
      next tenure isHolder =>
        have current := (shows.exists_holder isHolder).1
        have goesOn : scheduler.usesUp tenure.used = false := by
          simpa [current, (shows.slice tenure isHolder).2] using stays
        simp [goesOn]
    rwa [same]
  · obtain ⟨tenure, isHolder, isTask, named⟩ := shows.exists_tenure current present
    have usedUp : scheduler.usesUp tenure.used = true :=
      (shows.slice tenure isHolder).2.symm.trans expired
    have tasks := task?_put_same present { job with phase := .ready } rfl
    rw [Lineup.requeue, isHolder]
    simp only [usedUp, ↓reduceIte]
    refine ⟨rfl, by simp, ⟨by simp, fun task member => (tasks _).trans ?_⟩, ?_⟩
    · rcases mem_insertSorted.mp member with rfl | waits
      · exact shows.known.holder tenure isHolder
      · exact shows.known.waiting task waits
    · rw [← named] at entered
      exact shows.queue.push entered

theorem arrive {ready : ReadyQueue} (present : machine.job? job.id = some job)
    (entered : machine.ready.push job.id (scheduler.rank job) = .ok ready) :
    (Kernel.woken machine job.id job ready).Shows scheduler (lineup.join scheduler job.task) := by
  have tasks := task?_put_same present { job with phase := .ready } rfl
  refine ⟨shows.occupant, shows.slice, ⟨fun tenure isHolder => ?_, fun task member => ?_⟩,
    shows.queue.push (by exact entered)⟩
  · exact (tasks _).trans (shows.known.holder tenure isHolder)
  · rcases mem_insertSorted.mp member with rfl | waits
    · exact (tasks _).trans (task?_of_job? present)
    · exact (tasks _).trans (shows.known.waiting task waits)

/-- The machine lets a waiting job take the CPU just where the line-up does. -/
theorem displaces_eq_overtakes {tenure : Tenure} {front : Task} {candidate : Job}
    (orderly : machine.Orderly workload clock []) (isHolder : lineup.holder = some tenure)
    (present : machine.job? tenure.task.id = some job) (waits : front ∈ lineup.waiting)
    (isCandidate : machine.job? front.id = some candidate) (fits : lineup.Every Task.Fits)
    (servable : machine.Servable) :
    scheduler.displaces candidate job = scheduler.overtakes front tenure.task := by
  obtain ⟨current, _⟩ := shows.exists_holder isHolder
  have different : front.id ≠ tenure.task.id := fun same =>
    orderly.current_absent current (same ▸ shows.mem_ids waits)
  have isTask := shows.known.holder tenure isHolder
  have isFrontTask := shows.known.waiting front waits
  rw [task?_of_job? present, Option.some.injEq] at isTask
  rw [task?_of_job? isCandidate, Option.some.injEq] at isFrontTask
  have total := servable _ _ _ _ different isCandidate present
  rw [← isTask, ← isFrontTask] at different
  rw [← isTask, ← isFrontTask]
  exact Scheduler.displaces_eq different total (isFrontTask ▸ fits.waiting front waits)
    (isTask ▸ fits.holder tenure isHolder)

section Dispatch

variable (orderly : machine.Orderly workload clock []) (slices : scheduler.usesUp 0 = false)
  (picks : machine.ready.peek = lineup.waiting.head?.map (·.id))

include orderly slices picks

theorem fillCpu (idle : machine.cpu.current = none)
    (fills : scheduler.fillCpu machine = .ok next) :
    next.Shows scheduler (lineup.dispatch scheduler) := by
  have nobody := shows.holder_eq_none idle
  rcases Scheduler.fillCpu_ok fills with
    ⟨noneWaits, rfl⟩ | ⟨id, job, started, picked, _, present, booked, rfl⟩
  · have empty : lineup.waiting = [] := by simpa [noneWaits] using picks.symm
    rw [Lineup.dispatch, empty]
    exact shows
  · obtain ⟨front, isFront, rfl⟩ := Option.map_eq_some_iff.mp (picks.symm.trans picked)
    obtain ⟨rest, waiting⟩ := List.head?_eq_some_iff.mp isFront
    have isTask := shows.known.waiting front (by simp [waiting])
    rw [task?_of_job? present, Option.some.injEq] at isTask
    have startedTask : started.task = front.picked scheduler := by
      obtain ⟨_, _, _, rfl⟩ := startBooks_ok booked
      exact (Scheduler.task_restored scheduler job).trans (congrArg (·.picked scheduler) isTask)
    have listed := shows.queue.listed
    have queues := shows.queue
    rw [waiting] at listed queues
    have once := (List.nodup_cons.mp (listed.nodup_iff.mpr orderly.placement.nodup)).1
    rw [Lineup.dispatch, waiting, nobody]
    refine ⟨by simp [given, emit, Lineup.occupant], ?_, ⟨?_, fun task member => ?_⟩,
      queues.tail picked⟩
    · rintro tenure ⟨⟩
      exact ⟨rfl, slices.symm⟩
    · rintro tenure ⟨⟩
      refine (task?_put present started _).trans ?_
      simp [startedTask]
    · have elsewhere : task.id ≠ front.id := fun same =>
        once (List.mem_map.mpr ⟨task, member, same⟩)
      refine (task?_put present started _).trans ?_
      rw [if_neg elsewhere]
      exact shows.known.waiting task (by simp [waiting, member])

theorem contest (current : machine.cpu.current = some id) (fits : lineup.Every Task.Fits)
    (servable : machine.Servable) (contests : scheduler.contest machine id = .ok next) :
    next.Shows scheduler (lineup.dispatch scheduler) := by
  rcases Scheduler.contest_ok current contests with
    ⟨noneWaits, rfl⟩ | ⟨job, candidateId, candidate, picked, present, isCandidate, rest⟩
  · have empty : lineup.waiting = [] := by simpa [noneWaits] using picks.symm
    rw [Lineup.dispatch, empty]
    exact shows
  · obtain ⟨tenure, isHolder, _, rfl⟩ := shows.exists_tenure current present
    obtain ⟨front, isFront, rfl⟩ := Option.map_eq_some_iff.mp (picks.symm.trans picked)
    obtain ⟨others, waiting⟩ := List.head?_eq_some_iff.mp isFront
    have waits : front ∈ lineup.waiting := by simp [waiting]
    have sameChoice := shows.displaces_eq_overtakes orderly isHolder present waits isCandidate fits
      servable
    rw [Lineup.dispatch, waiting, isHolder]
    dsimp only
    rw [← sameChoice]
    rcases rest with ⟨stays, rfl⟩ | ⟨wins, ready, started, readied, _, entered, _, isReadied,
      booked, rfl⟩
    · rw [stays]
      exact shows
    · rw [wins]
      have released := task?_put_same present { job with phase := .ready } rfl
      have readiedTask := task?_of_job? isReadied
      have queues := shows.queue
      rw [waiting] at queues
      have startedTask : started.task = readied.task := by
        obtain ⟨_, _, _, rfl⟩ := startBooks_ok booked
        rfl
      have tasks (other : Nat) :
          ({ machine.pop.2.released tenure.task.id job (.preempt tenure.task.id front.id) with
            ready := ready }.given front.id started).task? other =
              machine.task? other :=
        (task?_put_same isReadied started startedTask other).trans (released other)
      refine ⟨rfl, ?_, ⟨?_, fun task member => (tasks _).trans ?_⟩, ?_⟩
      · rintro other ⟨⟩
        exact ⟨rfl, slices.symm⟩
      · rintro other ⟨⟩
        exact (tasks _).trans (shows.known.waiting front waits)
      · rcases mem_insertSorted.mp member with rfl | later
        · exact shows.known.holder tenure isHolder
        · exact shows.known.waiting task (by simp [waiting, later])
      · exact (queues.tail picked).push entered

theorem dispatch (fits : lineup.Every Task.Fits) (servable : machine.Servable)
    (dispatches : scheduler.dispatch machine = .ok next) :
    next.Shows scheduler (lineup.dispatch scheduler) := by
  cases current : machine.cpu.current with
  | none =>
      simp only [Scheduler.dispatch, current] at dispatches
      exact shows.fillCpu orderly slices picks current dispatches
  | some id =>
      have stays (never : ∀ front holder, scheduler.overtakes front holder = false) :
          lineup.dispatch scheduler = lineup := by
        obtain ⟨job, present, _⟩ := orderly.exists_current current
        obtain ⟨tenure, isHolder, _⟩ := shows.exists_tenure current present
        rw [Lineup.dispatch, isHolder]
        cases lineup.waiting <;> simp [never]
      cases scheduler with
      | srtf | preemptivePriority =>
          simp only [Scheduler.dispatch, current] at dispatches
          exact shows.contest orderly slices picks current fits servable dispatches
      | _ =>
          simp only [Scheduler.dispatch, current] at dispatches
          cases dispatches
          rw [stays fun _ _ => rfl]
          exact shows

end Dispatch

theorem ran {tenure : Tenure} (isHolder : lineup.holder = some tenure)
    (orderly : machine.Orderly workload clock [])
    (tasks : ∀ other, next.task? other =
      if other = tenure.task.id then some tenure.task.worked else machine.task? other)
    (ready : next.ready = machine.ready)
    (counted : next.cpu = { machine.cpu with
      sliceUsed := machine.cpu.sliceUsed + 1
      sliceExpired := scheduler.usesUp (tenure.used + 1) }) :
    next.Shows scheduler
      { holder := some tenure.worked, waiting := lineup.waiting } := by
  obtain ⟨current, _⟩ := shows.exists_holder isHolder
  refine ⟨?_, ?_, ⟨?_, fun task waits => ?_⟩, ready ▸ shows.queue⟩
  · rw [counted]
    exact current
  · rintro other ⟨⟩
    rw [counted]
    exact ⟨congrArg (· + 1) (shows.slice tenure isHolder).1, rfl⟩
  · rintro other ⟨⟩
    exact (tasks _).trans (if_pos rfl)
  · have elsewhere : task.id ≠ tenure.task.id := fun same =>
      orderly.current_absent current (same ▸ shows.mem_ids waits)
    rw [tasks, if_neg elsewhere]
    exact shows.known.waiting task waits

theorem completes {tenure : Tenure} (isHolder : lineup.holder = some tenure)
    (orderly : machine.Orderly workload clock []) (nobody : next.cpu.current = none)
    (ready : next.ready = machine.ready)
    (tasks : ∀ other, other ≠ tenure.task.id → next.task? other = machine.task? other) :
    next.Shows scheduler { waiting := lineup.waiting } := by
  obtain ⟨current, _⟩ := shows.exists_holder isHolder
  refine ⟨nobody, by simp, ⟨by simp, fun task waits => ?_⟩, ready ▸ shows.queue⟩
  have elsewhere : task.id ≠ tenure.task.id := fun same =>
    orderly.current_absent current (same ▸ shows.mem_ids waits)
  rw [tasks task.id elsewhere]
  exact shows.known.waiting task waits

theorem endSlice (nodup : machine.ready.ids.Nodup)
    (absent : ∀ id, machine.cpu.current = some id → id ∉ machine.ready.ids)
    (ends : scheduler.endSlice machine = .ok next) :
    next.Shows scheduler { lineup with waiting := scheduler.reorder lineup.waiting } := by
  obtain ⟨⟨jobs, ready, isNext⟩, places, aged⟩ := Scheduler.endSlice_ok nodup ends
  have sameCpu : next.cpu = machine.cpu := by rw [isNext]
  refine ⟨sameCpu ▸ shows.occupant, sameCpu ▸ shows.slice,
    ⟨fun tenure isHolder => ?_, fun task member => ?_⟩, ?_, fun unranked => ?_⟩
  · obtain ⟨current, _⟩ := shows.exists_holder isHolder
    rw [task?, aged, if_neg (absent _ current)]
    exact shows.known.holder tenure isHolder
  · obtain ⟨early, waits, rfl⟩ := Scheduler.exists_of_mem_reorder member
    obtain ⟨job, present, isTask⟩ := shows.exists_job waits
    rw [Task.id_waited, task?, aged, if_pos (shows.mem_ids waits), present, ← isTask]
    exact congrArg some (Scheduler.task_afterSlice scheduler job)
  · exact (scheduler.map_id_reorder lineup.waiting).trans (shows.queue.listed.trans places.symm)
  · have same : next.ready = machine.ready ∧ scheduler.reorder lineup.waiting = lineup.waiting := by
      cases scheduler with
      | fcfs | roundRobin =>
          cases ends
          exact ⟨rfl, rfl⟩
      | _ => cases unranked
    rw [same.1, same.2]
    exact shows.queue.admission unranked

theorem closeRan {tenure : Tenure} {worked : Machine} (isHolder : lineup.holder = some tenure)
    (orderly : machine.Orderly workload clock [])
    (workedOrder : worked.Orderly workload (clock + 1) [])
    (tasks : ∀ other, worked.task? other =
      if other = tenure.task.id then some tenure.task.worked else machine.task? other)
    (ready : worked.ready = machine.ready)
    (cpu : worked.cpu = { machine.cpu with sliceUsed := machine.cpu.sliceUsed + 1 })
    (inSlice : scheduler.usesUp tenure.used = false)
    (closes : scheduler.closeTick (.ran id) worked = .ok next) :
    next.Shows scheduler {
      holder := some tenure.worked
      waiting :=
        if scheduler.usesUp (tenure.used + 1) then scheduler.reorder lineup.waiting
        else lineup.waiting } := by
  have ⟨used, expired⟩ := shows.slice tenure isHolder
  rw [inSlice] at expired
  rcases Scheduler.closeTick_ok closes with
    ⟨rfl, left⟩ | ⟨⟨_, done⟩, _⟩ | ⟨_, quantum, _, slices, usedUp, ends⟩
  · have within : scheduler.usesUp (tenure.used + 1) = false := by
      refine Bool.eq_false_iff.mpr fun wholeSlice => ?_
      obtain ⟨quantum, slices, usedUp⟩ := Scheduler.usesUp_iff.mp wholeSlice
      rcases left with idle | ⟨_, _, left⟩
      · cases idle
      · have notYet := left quantum slices
        rw [cpu, used] at notYet
        exact Nat.not_le_of_lt notYet usedUp
    rw [within]
    exact shows.ran isHolder orderly tasks ready (by rw [cpu, within, ← expired])
  · cases done
  · rw [cpu, used] at usedUp
    have wholeSlice : scheduler.usesUp (tenure.used + 1) = true :=
      Scheduler.usesUp_iff.mpr ⟨quantum, slices, usedUp⟩
    have marked : worked.markExpired.Shows scheduler
        { holder := some tenure.worked, waiting := lineup.waiting } :=
      shows.ran isHolder orderly tasks ready (by rw [wholeSlice, markExpired, cpu])
    rw [wholeSlice]
    exact marked.endSlice workedOrder.placement.nodup (fun _ => workedOrder.current_absent) ends

theorem work {work : Work} {worked : Machine} (orderly : machine.Orderly workload clock [])
    (inSlice : ∀ tenure, lineup.holder = some tenure → scheduler.usesUp tenure.used = false)
    (works : machine.recordTrace.runCurrent = .ok (work, worked))
    (workedOrder : worked.Orderly workload (clock + 1) [])
    (closes : scheduler.closeTick work worked = .ok next) :
    next.Shows scheduler (lineup.work scheduler) := by
  rcases work_ok works with ⟨idle, rfl, rfl⟩ | ⟨id, job, current, present, rest⟩
  · cases closes
    rw [Lineup.work, shows.holder_eq_none idle]
    exact shows.of_same (fun _ => rfl) rfl rfl
  obtain ⟨tenure, isHolder, isTask, rfl⟩ := shows.exists_tenure current present
  have isRemaining : tenure.task.remaining = job.remaining := congrArg Task.remaining isTask
  rw [Lineup.work, isHolder]
  dsimp only
  rw [isRemaining]
  rcases rest with ⟨goesOn, _, rfl, isWorked⟩ | ⟨last, rfl, completed, booked, isWorked⟩
  · have workedTask : ({ job with remaining := job.remaining - 1 } : Job).task =
        tenure.task.worked := (congrArg Task.worked isTask).symm
    have tasks (other : Nat) : worked.task? other =
        if other = tenure.task.id then some tenure.task.worked else machine.task? other := by
      rw [isWorked, ← workedTask]
      exact task?_put present { job with remaining := job.remaining - 1 } other
    have ready : worked.ready = machine.ready := by rw [isWorked]; rfl
    have cpu : worked.cpu = { machine.cpu with sliceUsed := machine.cpu.sliceUsed + 1 } := by
      rw [isWorked]
    rw [if_neg goesOn]
    exact shows.closeRan isHolder orderly workedOrder tasks ready cpu (inSlice tenure isHolder)
      closes
  · have nobody : worked.cpu.current = none := by rw [isWorked]; rfl
    have ready : worked.ready = machine.ready := by rw [isWorked]; rfl
    have left := shows.completes isHolder orderly nobody ready fun other elsewhere => by
      rw [isWorked]
      exact (task?_put present completed other).trans (if_neg elsewhere)
    rw [if_pos last]
    rcases Scheduler.closeTick_ok closes with
      ⟨_, idle | ⟨_, ran, _⟩⟩ | ⟨_, ends⟩ | ⟨_, _, ran, _⟩
    · cases idle
    · cases ran
    · exact left.endSlice workedOrder.placement.nodup (fun _ => workedOrder.current_absent) ends
    · cases ran

end Shows

end Machine

end CpuScheduling
