import CpuScheduling.Proofs.Lineup.Reprioritizing
import CpuScheduling.Proofs.Simulation.SameOutcome

/-!
Priorities act through their order.  Under a policy that does not go by them any others may
take their place, and under one that goes by them any others in the same order, as long as
waiting adds nothing: the outcome is the same, and only the priorities in the books are others.
-/

namespace CpuScheduling

/-- A map of priorities, on the numbers that the books keep. -/
def onNumbers (level : UInt32 → UInt32) (priority : Nat) : Nat :=
  (level (UInt32.ofNat priority)).toNat

def Spec.reprioritized (level : UInt32 → UInt32) (spec : Spec) : Spec :=
  { spec with priority := level spec.priority }

def Schedule.reprioritized (level : UInt32 → UInt32) (schedule : Schedule) : Schedule :=
  { schedule with jobs := schedule.jobs.map (·.reprioritized (onNumbers level)) }

def KeepsPriorities (level : UInt32 → UInt32) (workload : List Spec) : Prop :=
  ∀ first ∈ workload, ∀ second ∈ workload, first.priority < second.priority →
    level first.priority < level second.priority

instance (level : UInt32 → UInt32) (workload : List Spec) :
    Decidable (KeepsPriorities level workload) :=
  inferInstanceAs (Decidable (∀ first ∈ workload, ∀ second ∈ workload,
    first.priority < second.priority → level first.priority < level second.priority))

/-- What a policy asks of other priorities: nothing if it does not go by them, else that they
are in the same order and that waiting adds nothing to them. -/
def Policy.Accepts (policy : Policy) (config : Config) (workload : List Spec)
    (level : UInt32 → UInt32) : Prop :=
  match policy with
  | .fcfs | .sjf | .srtf | .roundRobin => True
  | .priority | .preemptivePriority => KeepsPriorities level workload
  | .agingRoundRobin => config.agingStep = 0 ∧ KeepsPriorities level workload

variable {workload : List Spec} {config otherConfig : Config} {policy : Policy}
  {level : UInt32 → UInt32} {schedule other : Schedule} {scheduler : Scheduler}

@[simp]
theorem onNumbers_toNat (level : UInt32 → UInt32) (priority : UInt32) :
    onNumbers level priority.toNat = (level priority).toNat := by
  rw [onNumbers, UInt32.ofNat_toNat]

section Workloads

theorem Job.ofWorkload_reprioritized (level : UInt32 → UInt32) (workload : List Spec) :
    ofWorkload (workload.map (·.reprioritized level)) =
      (ofWorkload workload).map (·.reprioritized (onNumbers level)) := by
  have entry (id : Nat) (spec : Spec) : ofSpec id (spec.reprioritized level) =
      (ofSpec id spec).reprioritized (onNumbers level) := by
    simp [ofSpec, Spec.reprioritized, Job.reprioritized]
  apply List.ext_getElem?
  intro index
  rw [List.getElem?_map, getElem?_ofWorkload, getElem?_ofWorkload, List.getElem?_map,
    Option.map_map, Option.map_map]
  exact congrArg (Option.map · workload[index]?) (funext (entry (index + 1)))

theorem makespan_reprioritized (level : UInt32 → UInt32) (workload : List Spec) :
    makespan (workload.map (·.reprioritized level)) = makespan workload := by
  have sorted : arrivals (workload.map (·.reprioritized level)) =
      (arrivals workload).map (·.reprioritized (onNumbers level)) := by
    rw [arrivals, Job.ofWorkload_reprioritized]
    exact sortByInsertion_map fun _ _ _ _ => rfl
  rw [makespan, sorted, drainTime, List.foldl_map]
  rfl

theorem tasksAt_reprioritized (level : UInt32 → UInt32) (workload : List Spec) (time : Nat) :
    tasksAt (workload.map (·.reprioritized level)) time =
      (tasksAt workload time).map (·.reprioritized (onNumbers level)) := by
  rw [tasksAt, Job.ofWorkload_reprioritized, List.filter_map, List.map_map, tasksAt, List.map_map]
  rfl

theorem validate_reprioritized (level : UInt32 → UInt32) (workload : List Spec) :
    validate (workload.map (·.reprioritized level)) = validate workload := by
  rw [validate, validate, List.isEmpty_map, List.findIdx?_map]
  rfl

theorem Metrics.ofRun_reprioritized (level : Nat → Nat) (jobs : List Job)
    (record : Array TraceEntry) (switches : Nat) :
    ofRun (jobs.map (·.reprioritized level)) record switches = ofRun jobs record switches := by
  simp [ofRun, List.filterMap_map, Job.reprioritized]

/-- Tasks come with the priorities of the workload, and keep them where nothing is added. -/
theorem reprioritizes_of_accepts (decides : Scheduler.ofPolicy policy config = .ok scheduler)
    (accepts : policy.Accepts config workload level) :
    Reprioritizes scheduler (fun task => task.Unaged ∧ task.Submitted workload)
      (onNumbers level) := by
  have isPolicy := Scheduler.policy_of_ofPolicy decides
  have steady : scheduler.isSteady = true := by
    cases scheduler with
    | agingRoundRobin quantum step =>
        cases isPolicy
        obtain ⟨_, _, same⟩ := Scheduler.eq_of_ofPolicy_aging decides
        cases same
        exact decide_eq_true accepts.1
    | _ => rfl
  have keeps (goes : scheduler.goesByPriority = true) : KeepsPriorities level workload := by
    cases scheduler with
    | agingRoundRobin =>
        cases isPolicy
        exact accepts.2
    | priority | preemptivePriority =>
        cases isPolicy
        exact accepts
    | _ => cases goes
  refine ⟨steady, (Task.unaged_lasting steady).and (submitted_lasting workload scheduler),
    fun task known => known.1, fun goes => ?_⟩
  rintro _ ⟨first, ⟨_, job, isJob, _, _, isPriority⟩, rfl⟩ _
    ⟨second, ⟨_, otherJob, alsoJob, _, _, otherPriority⟩, rfl⟩ lower
  obtain ⟨_, spec, listed, rfl⟩ := Job.mem_ofWorkload.mp isJob
  obtain ⟨_, otherSpec, alsoListed, rfl⟩ := Job.mem_ofWorkload.mp alsoJob
  simp only [isPriority, otherPriority, Job.ofSpec, onNumbers_toNat] at lower ⊢
  exact keeps goes spec (List.mem_of_getElem? listed) otherSpec (List.mem_of_getElem? alsoListed)
    lower

end Workloads

section Runs

variable (decides : Scheduler.ofPolicy policy config = .ok scheduler)
  (otherDecides : Scheduler.ofPolicy policy otherConfig = .ok scheduler)
  (reprioritizes : Reprioritizes scheduler (fun task => task.Unaged ∧ task.Submitted workload)
    (onNumbers level))
  (ran : simulate workload config policy = .ok schedule)
  (otherRan : simulate (workload.map (·.reprioritized level)) otherConfig policy = .ok other)

include decides otherDecides reprioritizes ran otherRan

theorem occupantAt_reprioritized (time : Nat) :
    occupantAt other.trace time = occupantAt schedule.trace time := by
  have known (time : Nat) : ∀ task ∈ tasksAt workload time, task.Unaged ∧ task.Submitted workload :=
    fun task comes => ⟨unaged_tasksAt workload time task comes,
      submitted_tasksAt workload time task comes⟩
  rw [occupantAt_of_simulate otherDecides otherRan, occupantAt_of_simulate decides ran,
    funext (tasksAt_reprioritized level workload), reprioritizes.occupant known]

theorem eq_reprioritized_of_simulate : other = schedule.reprioritized level := by
  have record : other.trace = schedule.trace :=
    trace_eq_of_occupantAt ran otherRan (makespan_reprioritized level workload)
      (occupantAt_reprioritized decides otherDecides reprioritizes ran otherRan)
  have jobs : other.jobs = schedule.jobs.map (·.reprioritized (onNumbers level)) := by
    rw [jobs_of_simulate otherRan, jobs_of_simulate ran, record, Job.ofWorkload_reprioritized,
      List.map_map, List.map_map]
    rfl
  have switches : other.metrics.contextSwitches = schedule.metrics.contextSwitches := by
    rw [contextSwitches_of_simulate otherRan, contextSwitches_of_simulate ran, record]
  obtain ⟨isPolicy, measured⟩ := measured_of_simulate ran
  obtain ⟨alsoPolicy, otherMeasured⟩ := measured_of_simulate otherRan
  rw [jobs, record, switches, Metrics.ofRun_reprioritized, measured, Except.ok.injEq]
    at otherMeasured
  cases other
  cases alsoPolicy.trans isPolicy.symm
  cases otherMeasured
  cases record
  cases jobs
  rfl

end Runs

/-- Priorities that a policy accepts in place of others change nothing but the priorities in the
books; a request that fails, fails alike. -/
theorem simulate_reprioritized (workload : List Spec) (config : Config) (policy : Policy)
    (level : UInt32 → UInt32) (accepts : policy.Accepts config workload level) :
    simulate (workload.map (·.reprioritized level)) config policy =
      (simulate workload config policy).map (·.reprioritized level) := by
  have sameVerdict := validate_reprioritized level workload
  cases valid : validate workload with
  | error refusal =>
      rw [simulate_of_invalid valid, simulate_of_invalid (sameVerdict.trans valid)]
      rfl
  | ok =>
      have fate := simulate_of_makespan_eq config policy valid (sameVerdict.trans valid)
        (makespan_reprioritized level workload)
      cases ran : simulate workload config policy with
      | error failure =>
          rw [ran] at fate
          exact fate
      | ok schedule =>
          rw [ran] at fate
          obtain ⟨other, otherRan⟩ := fate
          obtain ⟨scheduler, decides⟩ := exists_scheduler_of_simulate ran
          have reprioritizes := reprioritizes_of_accepts decides accepts
          rw [otherRan, eq_reprioritized_of_simulate decides decides reprioritizes ran otherRan]
          rfl

/-- The second job comes at a higher priority and gets the CPU when the slice of the first one ends;
the third one comes in between.  Ten times the priorities are in the same order, even though ten
times a large one would not fit. -/
theorem simulate_reprioritized_times_ten :
    ∃ schedule,
      simulate [⟨0, 5, 1⟩, ⟨1, 3, 7⟩, ⟨2, 1, 4⟩] { quantum := some 2, agingIncrement := some 0 }
        .agingRoundRobin = .ok schedule ∧
      schedule.timeline =
        [some 1, some 1, some 2, some 2, some 2, some 3, some 1, some 1, some 1] ∧
      simulate [⟨0, 5, 10⟩, ⟨1, 3, 70⟩, ⟨2, 1, 40⟩]
        { quantum := some 2, agingIncrement := some 0 } .agingRoundRobin =
          .ok (schedule.reprioritized (· * 10)) := by
  have runs : (simulate [⟨0, 5, 1⟩, ⟨1, 3, 7⟩, ⟨2, 1, 4⟩]
      { quantum := some 2, agingIncrement := some 0 } .agingRoundRobin).toOption.map
        Schedule.timeline =
          some [some 1, some 1, some 2, some 2, some 2, some 3, some 1, some 1, some 1] := by
    decide +kernel
  obtain ⟨schedule, ran, timeline⟩ := exists_of_timeline runs
  have same := simulate_reprioritized [⟨0, 5, 1⟩, ⟨1, 3, 7⟩, ⟨2, 1, 4⟩]
    { quantum := some 2, agingIncrement := some 0 } .agingRoundRobin (· * 10)
    ⟨by decide, by decide⟩
  rw [ran] at same
  exact ⟨schedule, ran, timeline, same⟩

end CpuScheduling
