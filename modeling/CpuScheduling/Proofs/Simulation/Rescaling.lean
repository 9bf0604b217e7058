import CpuScheduling.Proofs.Lineup.Rescaling
import CpuScheduling.Proofs.Lineup.Run
import CpuScheduling.Proofs.Simulation.FinalBooks
import CpuScheduling.Proofs.Simulation.Switches

/-!
Time in another unit and from another origin shows in the times of a schedule and in
nothing else: each tick is repeated as often as the unit is long.
-/

namespace CpuScheduling

def Spec.rescaled (unit origin : Nat) (spec : Spec) : Spec :=
  { spec with
    arrival := .ofNat (unit * spec.arrival.toNat + origin)
    service := .ofNat (unit * spec.service.toNat) }

def Config.rescaled (unit origin : Nat) (config : Config) : Config :=
  { config with
    quantum := config.quantum.map fun quantum => .ofNat (unit * quantum.toNat)
    maxTicks := .ofNat (unit * config.maxTicks.toNat + origin) }

/-- Points in time move with the origin, and spans do not. -/
def Job.rescaled (unit origin : Nat) (job : Job) : Job :=
  { job with
    arrival := unit * job.arrival + origin
    service := unit * job.service
    remaining := unit * job.remaining
    firstStart := job.firstStart.map (unit * · + origin)
    completion := job.completion.map (unit * · + origin)
    turnaround := job.turnaround.map (unit * ·)
    waiting := job.waiting.map (unit * ·)
    response := job.response.map (unit * ·) }

/-- One schedule is another one in another unit and from another origin of time. -/
structure Schedule.RescaledBy (unit origin : Nat) (schedule other : Schedule) : Prop where
  timeline : other.timeline =
    List.replicate origin none ++ schedule.timeline.flatMap (List.replicate unit)
  contextSwitches : other.metrics.contextSwitches = schedule.metrics.contextSwitches
  jobs : other.jobs = schedule.jobs.map (·.rescaled unit origin)

def Spec.FitsRescaled (unit origin : Nat) (spec : Spec) : Prop :=
  unit * spec.arrival.toNat + origin < wordSize ∧ unit * spec.service.toNat < wordSize

theorem drainTime_rescaled (unit origin : Nat) {jobs : List Job} (nonempty : jobs ≠ []) :
    drainTime (jobs.map (·.rescaled unit origin)) = unit * drainTime jobs + origin := by
  induction jobs using List.reverseRecOn with
  | nil => exact absurd rfl nonempty
  | append_singleton early job inductionHypothesis =>
      have isFree : max (drainTime (early.map (·.rescaled unit origin)))
          (unit * job.arrival + origin) = unit * max (drainTime early) job.arrival + origin := by
        cases early with
        | nil => simp
        | cons first rest =>
            rw [inductionHypothesis (List.cons_ne_nil first rest), Nat.add_max_add_right,
              Nat.mul_max_mul_left]
      rw [List.map_append, List.map_singleton, drainTime_concat, drainTime_concat, Nat.mul_add,
        Nat.add_right_comm, ← isFree]
      rfl

section Workloads

variable {unit origin : Nat} {workload : List Spec}

variable (fits : ∀ spec ∈ workload, spec.FitsRescaled unit origin)

include fits

theorem ofWorkload_rescaled :
    Job.ofWorkload (workload.map (·.rescaled unit origin)) =
      (Job.ofWorkload workload).map (·.rescaled unit origin) := by
  apply List.ext_getElem?
  intro index
  rw [Job.getElem?_ofWorkload, List.getElem?_map, List.getElem?_map, Job.getElem?_ofWorkload,
    Option.map_map, Option.map_map]
  cases listed : workload[index]? with
  | none => rfl
  | some spec =>
      obtain ⟨arrival, service⟩ := fits spec (List.mem_of_getElem? listed)
      simp [Job.ofSpec, Spec.rescaled, Job.rescaled, Nat.mod_eq_of_lt, arrival, service]

variable (positive : 0 < unit)

include positive

theorem arrivals_rescaled :
    arrivals (workload.map (·.rescaled unit origin)) =
      (arrivals workload).map (·.rescaled unit origin) := by
  rw [arrivals, ofWorkload_rescaled fits, arrivals]
  refine sortByInsertion_map fun first _ second _ => ?_
  rw [Bool.eq_iff_iff, arrivesBefore_iff, arrivesBefore_iff]
  simp [Job.rescaled, positive, Nat.ne_of_gt positive]

theorem makespan_rescaled (nonempty : workload ≠ []) :
    makespan (workload.map (·.rescaled unit origin)) = unit * makespan workload + origin := by
  rw [makespan, arrivals_rescaled fits positive, makespan]
  refine drainTime_rescaled unit origin fun none => nonempty ?_
  have count := (arrivals_perm workload).length_eq
  rw [none, List.length_nil, Job.length_ofWorkload] at count
  exact List.eq_nil_of_length_eq_zero count.symm

theorem rescales_tasksAt {scheduler : Scheduler} (slices : scheduler.usesUp 0 = false) :
    Rescales scheduler unit origin (tasksAt workload)
      (tasksAt (workload.map (·.rescaled unit origin))) where
  slices := slices
  positive := positive
  onTime time := by
    rw [tasksAt, ofWorkload_rescaled fits, tasksAt, List.filter_map, List.map_map, List.map_map]
    refine congrArg (List.map _) (List.filter_congr fun job _ => ?_)
    simp [Job.rescaled, Nat.ne_of_gt positive]
  between tick between := by
    refine tasksAt_eq_nil_iff.mpr fun job submitted => ?_
    rw [ofWorkload_rescaled fits] at submitted
    obtain ⟨original, _, rfl⟩ := List.mem_map.mp submitted
    exact (between original.arrival).symm

end Workloads

/-- Each tick of a trace is a unit of the other one, in which nobody has the CPU before the
origin. -/
structure Repeats (unit origin : Nat) (record other : Array TraceEntry) : Prop where
  positive : 0 < unit
  units : ∀ time done, done < unit →
    occupantAt other (unit * time + origin + done) = occupantAt record time
  idle : ∀ tick < origin, occupantAt other tick = none

namespace Repeats

variable {unit origin : Nat} {record other : Array TraceEntry}

variable (repeats : Repeats unit origin record other)

include repeats

theorem exists_time {tick id : Nat} (holds : occupantAt other tick = some id) :
    ∃ time done, done < unit ∧ tick = unit * time + origin + done ∧
      occupantAt record time = some id := by
  rcases Nat.lt_or_ge tick origin with early | late
  · rw [repeats.idle tick early] at holds
    cases holds
  · have inUnit := Nat.mod_lt (tick - origin) repeats.positive
    have parts := Nat.div_add_mod (tick - origin) unit
    have isTick : tick = unit * ((tick - origin) / unit) + origin + (tick - origin) % unit := by
      omega
    refine ⟨_, _, inUnit, isTick, ?_⟩
    rw [← repeats.units _ _ inUnit, ← isTick, holds]

theorem head?_heldTicks (ordered : Chronological record) (otherOrdered : Chronological other)
    {id first : Nat} (isFirst : (heldTicks record id).head? = some first) :
    (heldTicks other id).head? = some (unit * first + origin) := by
  have holds := ordered.mem_heldTicks.mp (List.mem_of_head? isFirst)
  refine otherOrdered.head?_heldTicks ?_ fun tick holdsThen => ?_
  · rw [← holds, ← repeats.units first 0 repeats.positive, Nat.add_zero]
  · obtain ⟨time, done, _, rfl, held⟩ := repeats.exists_time holdsThen
    have later := ordered.head_le_heldTicks isFirst time (ordered.mem_heldTicks.mpr held)
    have scaled := Nat.mul_le_mul_left unit later
    omega

theorem getLast?_heldTicks (ordered : Chronological record) (otherOrdered : Chronological other)
    {id last : Nat} (isLast : (heldTicks record id).getLast? = some last) :
    (heldTicks other id).getLast? = some (unit * last + origin + (unit - 1)) := by
  have holds := ordered.mem_heldTicks.mp (List.mem_of_getLast? isLast)
  have positive := repeats.positive
  refine otherOrdered.getLast?_heldTicks ?_ fun tick holdsThen => ?_
  · rw [← holds, repeats.units last (unit - 1) (Nat.sub_one_lt_of_lt positive)]
  · obtain ⟨time, done, _, rfl, held⟩ := repeats.exists_time holdsThen
    have earlier := ordered.le_last_heldTicks isLast time (ordered.mem_heldTicks.mpr held)
    have scaled := Nat.mul_le_mul_left unit earlier
    omega

theorem map_range (count : Nat) :
    (List.range (unit * count + origin)).map (occupantAt other) =
      List.replicate origin none ++
        ((List.range count).map (occupantAt record)).flatMap (List.replicate unit) := by
  induction count with
  | zero =>
      have nobody : (List.range origin).map (occupantAt other) =
          (List.range origin).map fun _ => none :=
        List.map_congr_left fun tick early => repeats.idle tick (List.mem_range.mp early)
      simp [nobody]
  | succ count inductionHypothesis =>
      have whole : (List.range unit).map
          (fun done => occupantAt other (unit * count + origin + done)) =
            (List.range unit).map fun _ => occupantAt record count :=
        List.map_congr_left fun done inUnit => repeats.units count done (List.mem_range.mp inUnit)
      rw [Nat.mul_succ, Nat.add_right_comm, List.range_add, List.map_append, inductionHypothesis,
        List.map_map, List.range_succ, List.map_append, List.flatMap_append, ← List.append_assoc]
      congr 1
      simpa [Function.comp_def] using whole

end Repeats

section Runs

variable {workload : List Spec} {config : Config} {policy : Policy} {scheduler : Scheduler}
  {schedule other : Schedule} {unit origin : Nat}

theorem ofNat_mul_add_ne_zero {value : UInt64} (origin : Nat) (positive : 0 < unit)
    (nonzero : value ≠ 0) (fits : unit * value.toNat + origin < wordSize) :
    UInt64.ofNat (unit * value.toNat + origin) ≠ 0 := by
  intro zero
  have isZero := congrArg UInt64.toNat zero
  rw [UInt64.toNat_ofNat_of_lt' fits, UInt64.toNat_zero, Nat.add_eq_zero_iff,
    Nat.mul_eq_zero] at isZero
  rcases isZero.1 with noUnit | noValue
  · exact Nat.ne_of_gt positive noUnit
  · exact nonzero (UInt64.toNat_inj.mp noValue)

theorem Scheduler.ofPolicy_rescaled (positive : 0 < unit)
    (inWord : ∀ quantum, config.quantum = some quantum → unit * quantum.toNat < wordSize)
    (decides : ofPolicy policy config = .ok scheduler) :
    ofPolicy policy (config.rescaled unit origin) = .ok (scheduler.rescaled unit) := by
  have required {quantum : Nat} (requires : config.requiredQuantum = .ok quantum) :
      (config.rescaled unit origin).requiredQuantum = .ok (unit * quantum) := by
    obtain ⟨given, isGiven, nonzero, rfl⟩ := Config.requiredQuantum_eq_ok_iff.mp requires
    have fits := inWord given isGiven
    refine Config.requiredQuantum_eq_ok_iff.mpr ⟨.ofNat (unit * given.toNat), ?_, ?_, ?_⟩
    · simp [Config.rescaled, isGiven]
    · exact ofNat_mul_add_ne_zero 0 positive nonzero fits
    · exact UInt64.toNat_ofNat_of_lt' fits
  cases policy with
  | roundRobin | agingRoundRobin =>
      obtain ⟨quantum, requires, rfl⟩ := map_eq_ok_iff.mp decides
      exact map_eq_ok_iff.mpr ⟨unit * quantum, required requires, rfl⟩
  | _ =>
      cases decides
      rfl

theorem fitsRescaled_of_simulate (ran : simulate workload config policy = .ok schedule)
    (inWord : unit * config.maxTicks.toNat + origin < wordSize) :
    ∀ spec ∈ workload, spec.FitsRescaled unit origin := by
  intro spec member
  have inTime := (exists_ok_iff.mp ⟨schedule, ran⟩).2.2.2
  obtain ⟨index, listed⟩ := List.mem_iff_getElem?.mp member
  have submitted := Job.mem_ofWorkload.mpr ⟨index, spec, listed, rfl⟩
  have served : spec.arrival.toNat + spec.service.toNat ≤ makespan workload :=
    served_le_drainTime (mem_arrivals.mpr submitted)
  have arrives : unit * spec.arrival.toNat ≤ unit * config.maxTicks.toNat :=
    Nat.mul_le_mul_left unit (by omega)
  have works : unit * spec.service.toNat ≤ unit * config.maxTicks.toNat :=
    Nat.mul_le_mul_left unit (by omega)
  constructor
  · omega
  · omega

theorem validate_rescaled (positive : 0 < unit)
    (fits : ∀ spec ∈ workload, spec.FitsRescaled unit origin)
    (valid : validate workload = .ok ()) :
    validate (workload.map (·.rescaled unit origin)) = .ok () := by
  obtain ⟨nonempty, works⟩ := Simulation.validate_eq_ok_iff.mp valid
  refine Simulation.validate_eq_ok_iff.mpr ⟨by simpa using nonempty, fun spec member => ?_⟩
  obtain ⟨original, submitted, rfl⟩ := List.mem_map.mp member
  have nonzero := UInt64.pos_iff_ne_zero.mp (works original submitted)
  exact UInt64.pos_iff_ne_zero.mpr
    (ofNat_mul_add_ne_zero 0 positive nonzero (fits original submitted).2)

theorem repeats_of_simulate (positive : 0 < unit)
    (inWord : ∀ quantum, config.quantum = some quantum → unit * quantum.toNat < wordSize)
    (fits : ∀ spec ∈ workload, spec.FitsRescaled unit origin)
    (ran : simulate workload config policy = .ok schedule)
    (otherRan : simulate (workload.map (·.rescaled unit origin)) (config.rescaled unit origin)
      policy = .ok other) :
    Repeats unit origin schedule.trace other.trace := by
  obtain ⟨scheduler, decides⟩ := exists_scheduler_of_simulate ran
  have otherDecides : Scheduler.ofPolicy policy (config.rescaled unit origin) =
      .ok (scheduler.rescaled unit) := Scheduler.ofPolicy_rescaled positive inWord decides
  have rescales := rescales_tasksAt fits positive (Scheduler.usesUp_zero decides)
  refine ⟨positive, fun time done inUnit => ?_, fun tick early => ?_⟩
  · rw [occupantAt_of_simulate otherDecides otherRan, occupantAt_of_simulate decides ran,
      rescales.occupant time inUnit]
  · rw [occupantAt_of_simulate otherDecides otherRan, rescales.occupant_origin early]

theorem Job.closed_rescaled {job : Job} {held otherHeld : List Nat} {first last : Nat}
    (positive : 0 < unit)
    (isFirst : held.head? = some first) (isLast : held.getLast? = some last)
    (otherFirst : otherHeld.head? = some (unit * first + origin))
    (otherLast : otherHeld.getLast? = some (unit * last + origin + (unit - 1))) :
    (job.rescaled unit origin).closed otherHeld = (job.closed held).rescaled unit origin := by
  have completion : unit * last + origin + (unit - 1) + 1 = unit * (last + 1) + origin := by
    rw [Nat.mul_succ]
    omega
  simp [Job.closed, Job.rescaled, isFirst, isLast, otherFirst, otherLast, completion, Nat.mul_sub,
    Nat.add_sub_add_right]

/-- Neither a rest nor a longer stay in every tick is a switch. -/
theorem changes_occupants_of_timeline (positive : 0 < unit)
    (timeline : other.timeline =
      List.replicate origin none ++ schedule.timeline.flatMap (List.replicate unit)) :
    changes (occupants other.trace) = changes (occupants schedule.trace) := by
  have nobody : (List.replicate origin none).filterMap (id : Option Nat → Option Nat) = [] := by
    simp
  have repeated (entries : List (Option Nat)) :
      (entries.flatMap (List.replicate unit)).filterMap id =
        (entries.filterMap id).flatMap (List.replicate unit) := by
    induction entries with
    | nil => rfl
    | cons entry rest inductionHypothesis =>
        rw [List.flatMap_cons, List.filterMap_append, inductionHypothesis]
        cases entry with
        | none => simp
        | some id => simp
  rw [occupants_eq, occupants_eq, timeline, List.filterMap_append, nobody, repeated,
    List.nil_append, changes_flatMap_replicate positive]

theorem rescaledBy_of_simulate (positive : 0 < unit)
    (fits : ∀ spec ∈ workload, spec.FitsRescaled unit origin)
    (ran : simulate workload config policy = .ok schedule)
    (otherRan : simulate (workload.map (·.rescaled unit origin)) (config.rescaled unit origin)
      policy = .ok other)
    (repeats : Repeats unit origin schedule.trace other.trace) :
    schedule.RescaledBy unit origin other := by
  have timeline : other.timeline =
      List.replicate origin none ++ schedule.timeline.flatMap (List.replicate unit) := by
    rw [timeline_of_simulate otherRan, timeline_of_simulate ran,
      makespan_rescaled fits positive (nonempty_of_simulate ran), repeats.map_range]
  refine ⟨timeline, ?_, ?_⟩
  · rw [contextSwitches_of_simulate otherRan, contextSwitches_of_simulate ran,
      changes_occupants_of_timeline positive timeline]
  · have ordered := (chronological_of_simulate ran).1
    have otherOrdered := (chronological_of_simulate otherRan).1
    rw [jobs_of_simulate otherRan, ofWorkload_rescaled fits, jobs_of_simulate ran, List.map_map,
      List.map_map]
    refine List.map_congr_left fun job submitted => ?_
    obtain ⟨first, completion, _, traced⟩ := traced_of_submitted ran submitted
    exact Job.closed_rescaled positive traced.first traced.last
      (repeats.head?_heldTicks ordered otherOrdered traced.first)
      (repeats.getLast?_heldTicks ordered otherOrdered traced.last)

/-- A run that completes does so in any other unit of time and from any later origin, as far
as words go, and only the times of its schedule change. -/
theorem simulate_rescaled (positive : 0 < unit)
    (ran : simulate workload config policy = .ok schedule)
    (quantumFits : ∀ quantum, config.quantum = some quantum → unit * quantum.toNat < wordSize)
    (limitFits : unit * config.maxTicks.toNat + origin < wordSize) :
    ∃ other, simulate (workload.map (·.rescaled unit origin)) (config.rescaled unit origin)
        policy = .ok other ∧ schedule.RescaledBy unit origin other := by
  obtain ⟨valid, limit, quantum, inTime⟩ := exists_ok_iff.mp ⟨schedule, ran⟩
  have fits := fitsRescaled_of_simulate ran limitFits
  have isLimit : (config.rescaled unit origin).maxTicks.toNat =
      unit * config.maxTicks.toNat + origin := UInt64.toNat_ofNat_of_lt' limitFits
  obtain ⟨other, otherRan⟩ : ∃ other, simulate (workload.map (·.rescaled unit origin))
      (config.rescaled unit origin) policy = .ok other := by
    refine exists_ok_iff.mpr ⟨validate_rescaled positive fits valid, ?_, fun uses => ?_, ?_⟩
    · exact ofNat_mul_add_ne_zero origin positive limit limitFits
    · obtain ⟨given, isGiven, nonzero⟩ := quantum uses
      refine ⟨.ofNat (unit * given.toNat), by simp [Config.rescaled, isGiven], ?_⟩
      exact ofNat_mul_add_ne_zero 0 positive nonzero (quantumFits given isGiven)
    · rw [isLimit, makespan_rescaled fits positive (nonempty_of_simulate ran)]
      exact Nat.add_le_add_right (Nat.mul_le_mul_left unit inTime) origin
  exact ⟨other, otherRan, rescaledBy_of_simulate positive fits ran otherRan
    (repeats_of_simulate positive quantumFits fits ran otherRan)⟩

/-- Two new ticks make an old one, and time begins one new tick earlier. -/
theorem simulate_rescaled_half_ticks :
    ∃ schedule other,
      simulate [⟨0, 3, 0⟩, ⟨1, 1, 0⟩, ⟨6, 1, 0⟩] { quantum := some 2, maxTicks := 10 }
        .roundRobin = .ok schedule ∧
      simulate [⟨1, 6, 0⟩, ⟨3, 2, 0⟩, ⟨13, 2, 0⟩] { quantum := some 4, maxTicks := 21 }
        .roundRobin = .ok other ∧
      schedule.timeline = [some 1, some 1, some 2, some 1, none, none, some 3] ∧
      other.timeline = [none, some 1, some 1, some 1, some 1, some 2, some 2, some 1, some 1,
        none, none, none, none, some 3, some 3] ∧
      other.metrics.contextSwitches = schedule.metrics.contextSwitches ∧
      other.jobs = schedule.jobs.map (·.rescaled 2 1) := by
  have runs : (simulate [⟨0, 3, 0⟩, ⟨1, 1, 0⟩, ⟨6, 1, 0⟩] { quantum := some 2, maxTicks := 10 }
      .roundRobin).toOption.map Schedule.timeline =
        some [some 1, some 1, some 2, some 1, none, none, some 3] := by
    decide +kernel
  obtain ⟨schedule, ran, timeline⟩ := exists_of_timeline runs
  have limitFits : 2 * (10 : UInt64).toNat + 1 < wordSize := by decide
  have quantumFits : ∀ quantum : UInt64, some 2 = some quantum →
      2 * quantum.toNat < wordSize := by
    rintro quantum ⟨⟩
    decide
  obtain ⟨other, otherRan, rescaled⟩ :=
    simulate_rescaled (by decide : 0 < 2) ran quantumFits limitFits
  refine ⟨schedule, other, ran, otherRan, timeline, ?_, rescaled.contextSwitches, rescaled.jobs⟩
  rw [rescaled.timeline, timeline]
  rfl

end Runs

end CpuScheduling
