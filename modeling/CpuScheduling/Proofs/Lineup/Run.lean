import CpuScheduling.Proofs.Lineup.Machine
import CpuScheduling.Proofs.Simulation.ShortestFirst

/-!
A run shows its line-ups.  The trace of a run that completes is told by what comes and
when: in every tick the occupant is the holder of the line-up.
-/

namespace CpuScheduling

/-- The tasks that come with a tick, in the order in which they join. -/
def tasksAt (workload : List Spec) (time : Nat) : List Task :=
  ((Job.ofWorkload workload).filter (·.arrival = time)).map Job.task

variable {workload : List Spec} {scheduler : Scheduler}

theorem mem_tasksAt {time : Nat} {task : Task} :
    task ∈ tasksAt workload time ↔
      ∃ job ∈ Job.ofWorkload workload, job.arrival = time ∧ job.task = task := by
  simp [tasksAt, and_assoc]

theorem tasksAt_eq_nil_iff {time : Nat} :
    tasksAt workload time = [] ↔ ∀ job ∈ Job.ofWorkload workload, job.arrival ≠ time := by
  simp [tasksAt]

theorem fits_tasksAt (workload : List Spec) (time : Nat) :
    ∀ task ∈ tasksAt workload time, task.Fits := by
  intro task member
  obtain ⟨job, submitted, _, rfl⟩ := mem_tasksAt.mp member
  obtain ⟨index, spec, _, rfl⟩ := Job.mem_ofWorkload.mp submitted
  exact ⟨spec.priority.toNat_lt, spec.priority.toNat_lt⟩

def Task.Submitted (workload : List Spec) (task : Task) : Prop :=
  ∃ job ∈ Job.ofWorkload workload,
    task.id = job.id ∧ task.arrival = job.arrival ∧ task.priority = job.priority

theorem submitted_lasting (workload : List Spec) (scheduler : Scheduler) :
    Task.Lasting scheduler (Task.Submitted workload) where
  picked task submitted := by cases scheduler <;> exact submitted
  waited task submitted := by
    cases scheduler with
    | agingRoundRobin quantum step =>
        simp only [Task.waited]
        split <;> exact submitted
    | _ => exact submitted
  worked _ submitted _ := submitted

theorem submitted_tasksAt (workload : List Spec) (time : Nat) :
    ∀ task ∈ tasksAt workload time, task.Submitted workload := by
  intro task member
  obtain ⟨job, submitted, _, rfl⟩ := mem_tasksAt.mp member
  exact ⟨job, submitted, rfl, rfl, rfl⟩

theorem Config.requiredQuantum_pos {config : Config} {quantum : Nat}
    (required : config.requiredQuantum = .ok quantum) : 0 < quantum := by
  obtain ⟨given, _, nonzero, rfl⟩ := requiredQuantum_eq_ok_iff.mp required
  exact Nat.pos_of_ne_zero fun zero => nonzero (UInt64.toNat_inj.mp zero)

theorem Config.requiredQuantum_of_ofPolicy {config : Config} {policy : Policy} {quantum : UInt64}
    (uses : policy.usesQuantum = true) (decides : Scheduler.ofPolicy policy config = .ok scheduler)
    (given : config.quantum = some quantum) : config.requiredQuantum = .ok quantum.toNat := by
  refine requiredQuantum_eq_ok_iff.mpr ⟨quantum, given, ?_, rfl⟩
  rintro rfl
  cases policy with
  | roundRobin | agingRoundRobin =>
      simp [Scheduler.ofPolicy, Config.requiredQuantum, given, Except.map] at decides
  | _ => cases uses

theorem Scheduler.usesUp_zero {policy : Policy} {config : Config}
    (decides : ofPolicy policy config = .ok scheduler) : scheduler.usesUp 0 = false := by
  have positive {quantum : Nat} (required : config.requiredQuantum = .ok quantum) :
      (some quantum).any (fun quantum => decide (quantum ≤ 0)) = false := by
    simpa using Nat.ne_of_gt (Config.requiredQuantum_pos required)
  cases policy with
  | roundRobin | agingRoundRobin =>
      obtain ⟨_, required, rfl⟩ := map_eq_ok_iff.mp decides
      exact positive required
  | _ =>
      cases decides
      rfl

theorem Machine.job?_of_mem_ofWorkload {ready : ReadyQueue} {fixesWaiting : Bool} {job : Job}
    (submitted : job ∈ Job.ofWorkload workload) :
    (ofWorkload workload ready fixesWaiting).job? job.id = some job := by
  obtain ⟨index, spec, listed, rfl⟩ := Job.mem_ofWorkload.mp submitted
  exact (Job.getElem?_ofWorkload workload index).trans (congrArg (Option.map _) listed)

namespace Lineup

theorem length_joinAll (scheduler : Scheduler) (lineup : Lineup) (tasks : List Task) :
    (tasks.foldl (join scheduler) lineup).waiting.length =
      lineup.waiting.length + tasks.length := by
  induction tasks generalizing lineup with
  | nil => rfl
  | cons task rest inductionHypothesis =>
      rw [List.foldl_cons, inductionHypothesis]
      simp only [join, length_insertSorted, List.length_cons]
      omega

theorem joinAll_eq_empty {lineup : Lineup} {tasks : List Task}
    (empty : tasks.foldl (join scheduler) lineup = {}) : tasks = [] ∧ lineup = {} := by
  have count := length_joinAll scheduler lineup tasks
  rw [empty, List.length_nil] at count
  have noTask : tasks = [] := List.eq_nil_of_length_eq_zero (by omega)
  subst noTask
  exact ⟨rfl, empty⟩

end Lineup

namespace Kernel

variable {kernel next : Kernel} {woken awaited : List Job}

def joined (workload : List Spec) (kernel : Kernel) : List Task :=
  ((arrivals workload).filter fun job =>
    job.arrival = kernel.machine.now ∧ kernel.machine.phase? job.id ≠ some .pending).map Job.task

theorem Fed.joined_eq (fed : kernel.Fed workload woken awaited) :
    kernel.joined workload = (woken.filter (·.arrival = kernel.machine.now)).map Job.task := by
  have come : woken.filter (fun job => job.arrival = kernel.machine.now ∧
      kernel.machine.phase? job.id ≠ some .pending) =
        woken.filter (·.arrival = kernel.machine.now) := by
    apply List.filter_congr
    intro job member
    simp [(fed.come job member).2]
  have due : awaited.filter (fun job => job.arrival = kernel.machine.now ∧
      kernel.machine.phase? job.id ≠ some .pending) = [] := by
    apply List.filter_eq_nil_iff.mpr
    intro job member
    have phase := Job.phase_of_mem_ofWorkload (fed.submitted (.inr member))
    simp [Machine.phase?_of_job? (fed.due job member).2, phase]
  rw [joined, ← fed.split, List.filter_append, come, due, List.append_nil]

theorem Fed.joined_eq_tasksAt (fed : kernel.Fed workload woken awaited)
    (later : ∀ job ∈ awaited, kernel.machine.now < job.arrival) :
    kernel.joined workload = tasksAt workload kernel.machine.now := by
  have due : awaited.filter (·.arrival = kernel.machine.now) = [] := by
    apply List.filter_eq_nil_iff.mpr
    intro job member
    have toCome := later job member
    simp only [decide_eq_true_eq]
    omega
  rw [fed.joined_eq, tasksAt, ← filter_arrivals, ← fed.split, List.filter_append, due,
    List.append_nil]

theorem Fed.arrived {job : Job} (fed : kernel.Fed workload woken awaited)
    (submitted : job ∈ arrivals workload) (awake : kernel.machine.phase? job.id ≠ some .pending) :
    job.arrival ≤ kernel.machine.now := by
  rw [← fed.split] at submitted
  rcases List.mem_append.mp submitted with come | due
  · exact (fed.come job come).1
  · have phase := Job.phase_of_mem_ofWorkload (fed.submitted (.inr due))
    simp [Machine.phase?_of_job? (fed.due job due).2, phase] at awake

theorem Fed.tasksAt_eq_nil {time : Nat} (fed : kernel.Fed workload woken awaited)
    (past : kernel.machine.now < time) (due : ∀ job ∈ awaited, time < job.arrival) :
    tasksAt workload time = [] := by
  refine tasksAt_eq_nil_iff.mpr fun job submitted isTime => ?_
  have come := (fed.come job (fed.mem_woken submitted (Nat.le_of_eq isTime) due)).1
  omega

/-- The past is told by the line-ups, and the machine shows the present one. -/
structure Follows (workload : List Spec) (scheduler : Scheduler) (kernel : Kernel) : Prop where
  fresh : scheduler.isRanked = true → kernel.machine.FreshRanks scheduler
  shows : kernel.machine.Shows scheduler ((kernel.joined workload).foldl (Lineup.join scheduler)
    (Lineup.before scheduler (tasksAt workload) kernel.machine.now))
  past : ∀ time < kernel.machine.now, occupantAt kernel.machine.trace time =
    (Lineup.during scheduler (tasksAt workload) time).occupant

theorem Follows.wake {job : Job} {awaited : List Job}
    (follows : kernel.Follows workload kernel.scheduler)
    (conserving : kernel.Conserving workload woken (job :: awaited))
    (come : job.arrival ≤ kernel.machine.now) (wakes : kernel.wake job.id = .ok next) :
    next.Follows workload kernel.scheduler := by
  have isNow := (conserving.due job List.mem_cons_self).1
  have present := (conserving.due job List.mem_cons_self).2
  obtain ⟨_, wakesSame, woke, _⟩ := conserving.wake come
  cases wakes.symm.trans wakesSame
  obtain ⟨found, ready, isFound, _, _, entered, rfl⟩ := wake_ok wakes
  cases present.symm.trans isFound
  have sameNow : (Kernel.woken kernel.machine job.id job ready).now = kernel.machine.now := rfl
  have joins : Kernel.joined workload
      { kernel with machine := Kernel.woken kernel.machine job.id job ready } =
        kernel.joined workload ++ [job.task] := by
    rw [woke.joined_eq, conserving.joined_eq, List.filter_append, List.map_append]
    have comes : job.arrival = kernel.machine.now := by omega
    simp [sameNow, comes]
  refine ⟨fun ranked => wake_freshRanks (follows.fresh ranked) wakes, ?_, follows.past⟩
  rw [joins, List.foldl_append]
  exact follows.shows.arrive present entered

/-- Once the expired job is queued again, the machine shows the line-up that gathers for the tick,
and its queue picks the task in front. -/
theorem Follows.gathers {requeued started worked closed : Machine} {work : Work}
    (follows : kernel.Follows workload kernel.scheduler)
    (conserving : kernel.Conserving workload woken awaited)
    (later : ∀ job ∈ awaited, kernel.machine.now < job.arrival)
    (phases : Phases workload kernel requeued started work worked closed)
    (small : demand (arrivals workload) < wordSize) :
    ∃ lineup : Lineup, lineup = Lineup.gather kernel.scheduler
        (Lineup.before kernel.scheduler (tasksAt workload) kernel.machine.now)
        (tasksAt workload kernel.machine.now) ∧
      requeued.Shows kernel.scheduler lineup ∧
      requeued.ready.peek = lineup.waiting.head?.map (·.id) ∧
      lineup.Every Task.Fits ∧ requeued.Servable := by
  have shows := follows.shows
  rw [conserving.joined_eq_tasksAt later] at shows
  have requeuedFresh ranked := (phases.freshRanks (follows.fresh ranked)).1
  have servable : requeued.Servable := remaining_add_lt phases.settled.toBooked small
  have fits : Lineup.Every Task.Fits (Lineup.gather kernel.scheduler _ _) :=
    (Lineup.Every.before (Task.fits_lasting kernel.scheduler) (fits_tasksAt workload)
      kernel.machine.now).gather (fits_tasksAt workload kernel.machine.now)
  have ordered := (Lineup.Ordered.before kernel.scheduler (tasksAt workload)
    kernel.machine.now).gather (tasksAt workload kernel.machine.now)
  have requeuedShows := shows.requeue phases.requeues
  exact ⟨_, rfl, requeuedShows, requeuedShows.peek ordered fits requeuedFresh servable, fits,
    servable⟩

theorem Follows.tick {requeued started worked closed : Machine} {work : Work}
    (follows : kernel.Follows workload kernel.scheduler)
    (conserving : kernel.Conserving workload woken awaited)
    (later : ∀ job ∈ awaited, kernel.machine.now < job.arrival)
    (phases : Phases workload kernel requeued started work worked closed)
    (nextOrder : (kernel.afterTick closed).Conserving workload woken awaited)
    (change : Ticked started.cpu.current kernel (kernel.afterTick closed)) 
    (slices : kernel.scheduler.usesUp 0 = false) (small : demand (arrivals workload) < wordSize) :
    (kernel.afterTick closed).Follows workload kernel.scheduler := by
  have settled := conserving.orderly.settled
  have nobody : (kernel.afterTick closed).joined workload = [] := by
    rw [nextOrder.joined_eq, change.now, List.map_eq_nil_iff, List.filter_eq_nil_iff]
    intro job member
    have come := (conserving.come job member).1
    simp only [decide_eq_true_eq]
    omega
  obtain ⟨_, rfl, requeuedShows, picks, fits, servable⟩ :=
    follows.gathers conserving later phases small
  have startedShows := requeuedShows.dispatch phases.settled.toOrderly slices picks fits servable
    phases.dispatches
  have closedShows := startedShows.work phases.startedOrder
    (Lineup.quiet_during slices (tasksAt workload) kernel.machine.now).slice phases.works
    phases.workedOrder phases.closes
  refine ⟨fun ranked => (phases.freshRanks (follows.fresh ranked)).2.2, ?_, fun time past => ?_⟩
  · rw [nobody, change.now]
    exact closedShows.of_same (fun _ => rfl) rfl rfl
  · rw [change.record, occupantAt_push, settled.elapsed]
    split
    next isNow =>
      rw [isNow]
      exact startedShows.occupant
    next before =>
      rw [change.now] at past
      exact follows.past time (by omega)

theorem Follows.nobody {ticks : Nat} (follows : kernel.Follows workload scheduler)
    (conserving : kernel.Conserving workload woken awaited)
    (idle : kernel.machine.cpu.current = none) (empty : kernel.machine.ready.ids = [])
    (due : ∀ job ∈ awaited, kernel.machine.now < job.arrival ∧
      kernel.machine.now + ticks ≤ job.arrival) :
    Lineup.before scheduler (tasksAt workload) (kernel.machine.now + ticks) = {} ∧
      ∀ time, kernel.machine.now ≤ time → time < kernel.machine.now + ticks →
        Lineup.during scheduler (tasksAt workload) time = {} := by
  have all := conserving.joined_eq_tasksAt fun job member => (due job member).1
  obtain ⟨noneJoined, noneBefore⟩ :=
    Lineup.joinAll_eq_empty (follows.shows.eq_empty idle empty)
  have noneComes : ∀ time, kernel.machine.now ≤ time → time < kernel.machine.now + ticks →
      tasksAt workload time = [] := by
    intro time fromNow toEnd
    rcases Nat.eq_or_lt_of_le fromNow with rfl | past
    · rw [← all, noneJoined]
    · exact conserving.tasksAt_eq_nil past fun job member =>
        Nat.lt_of_lt_of_le toEnd (due job member).2
  refine ⟨Lineup.before_add_of_empty noneBefore noneComes, fun time fromNow toEnd => ?_⟩
  obtain ⟨later, rfl⟩ := Nat.exists_eq_add_of_le fromNow
  have stays : Lineup.before scheduler (tasksAt workload) (kernel.machine.now + later) = {} :=
    Lineup.before_add_of_empty noneBefore fun time fromNow inRest =>
      noneComes time fromNow (Nat.lt_trans inRest toEnd)
  rw [Lineup.during, stays, noneComes _ fromNow toEnd]
  rfl

theorem Follows.rest {ticks : Nat} (follows : kernel.Follows workload scheduler)
    (conserving : kernel.Conserving workload woken awaited) (atRest : kernel.AtRest)
    (before : ∀ job ∈ awaited, kernel.machine.now + ticks ≤ job.arrival) :
    (kernel.rested ticks 0).Follows workload scheduler := by
  cases ticks with
  | zero => rwa [atRest.rested_zero]
  | succ ticks =>
      have settled := conserving.orderly.settled
      obtain ⟨noneAfter, noneDuring⟩ := follows.nobody conserving atRest.idle atRest.empty
        fun job member => ⟨Nat.lt_of_lt_of_le (by omega) (before job member), before job member⟩
      have noneYet : (kernel.rested (ticks + 1) 0).joined workload = [] := by
        rw [joined, List.map_eq_nil_iff, List.filter_eq_nil_iff]
        intro job member
        rw [decide_eq_true_eq]
        rintro ⟨isNow, awake⟩
        have come := conserving.arrived member awake
        have later : job.arrival = kernel.machine.now + (ticks + 1) := isNow
        omega
      have isAfter : Lineup.before scheduler (tasksAt workload)
          (kernel.rested (ticks + 1) 0).machine.now = {} := noneAfter
      have shows := follows.shows
      rw [shows.eq_empty atRest.idle atRest.empty] at shows
      refine ⟨follows.fresh, ?_, fun time past => ?_⟩
      · rw [noneYet, isAfter]
        exact shows.of_same (fun _ => rfl) rfl rfl
      · rw [Kernel.rested, Machine.rested, occupantAt_append_idleTrace]
        rcases Nat.lt_or_ge time kernel.machine.now with earlier | resting
        · exact follows.past time earlier
        · rw [noneDuring time resting past, occupantAt_of_size_le (settled.elapsed ▸ resting)]
          rfl

theorem maintained_follows (slices : scheduler.usesUp 0 = false)
    (small : demand (arrivals workload) < wordSize) :
    Maintained workload scheduler fun _ kernel => kernel.Follows workload scheduler where
  wake := by
    rintro _ kernel next woken job awaited conserving rfl come wakes follows
    exact follows.wake conserving come wakes
  tick := by
    rintro _ kernel woken awaited requeued started work worked closed news conserving rfl later
      phases _ nextOrder change follows
    exact follows.tick conserving later phases nextOrder change slices small
  rest := by
    intro _ kernel woken awaited ticks _ conserving _ atRest before follows
    exact follows.rest conserving atRest before

theorem initial_follows (workload : List Spec) (scheduler : Scheduler) :
    (initial workload scheduler).Follows workload scheduler := by
  have nobody : (initial workload scheduler).joined workload = [] := by
    rw [joined, List.map_eq_nil_iff, List.filter_eq_nil_iff]
    intro job member
    have present : (initial workload scheduler).machine.job? job.id = some job :=
      Machine.job?_of_mem_ofWorkload (mem_arrivals.mp member)
    simp [Machine.phase?_of_job? present, Job.phase_of_mem_ofWorkload (mem_arrivals.mp member)]
  refine ⟨fun ranked => ?_, ?_, by simp [initial, Machine.ofWorkload]⟩
  · cases scheduler with
    | fcfs | roundRobin => cases ranked
    | _ => exact Machine.ofWorkload_freshRanks ..
  · rw [nobody]
    refine Machine.shows_empty rfl (ids_emptyQueue scheduler) fun unranked => ?_
    cases scheduler with
    | fcfs | roundRobin => rfl
    | _ => cases unranked

end Kernel

variable {config : Config} {policy : Policy} {schedule : Schedule}

/-- Who has the CPU in a tick is the holder of the line-up. -/
theorem occupantAt_of_simulate (decides : Scheduler.ofPolicy policy config = .ok scheduler)
    (ran : simulate workload config policy = .ok schedule) (time : Nat) :
    occupantAt schedule.trace time =
      (Lineup.during scheduler (tasksAt workload) time).occupant := by
  obtain ⟨last, woken, conserving, inTime, finished, reports, follows⟩ :=
    (Kernel.maintained_follows (Scheduler.usesUp_zero decides) (demand_lt_of_simulate ran)).simulate
      decides (Kernel.initial_follows workload scheduler) ran
  rw [reports.record]
  rcases Nat.lt_or_ge time last.machine.now with past | atEnd
  · exact follows.past time past
  · have settled := conserving.orderly.settled
    have idle := settled.current_of_allFinished finished
    have empty := settled.ids_of_allFinished finished
    have later : time < last.machine.now + (time + 1) := by omega
    rw [(follows.nobody conserving idle empty (by simp)).2 time atEnd later,
      occupantAt_of_size_le (settled.elapsed ▸ atEnd)]
    rfl

end CpuScheduling
