import CpuScheduling.Proofs.CommandLine.Outcome
import CpuScheduling.Proofs.CommandLine.Settings

/-!
Whether a session runs a document with the settings that it is asked for.  What is given comes
before what the document says, which comes before the defaults; but a document cannot say after
how many ticks a run is given up.
-/

namespace CpuScheduling.CommandLine

def Options.policies (options : Options) : List Policy :=
  if options.all then Policy.all else (Policy.ofName? options.policy).toList

/-- The output of a session whose runs have these outcomes. -/
def Shows (options : Options) (output : Checked Output)
    (outcome : Policy → Except Failure Schedule) : Prop :=
  if options.all then
    output = showResults options (Policy.all.map fun policy => (policy, outcome policy))
  else
    match Policy.ofName? options.policy with
    | some policy => ShowsRun options policy output (outcome policy)
    | none => output = .ok (.failed "" (.ofRefusal (.unsupportedPolicy options.policy)))

variable {arguments : List String} {given : List Given} {options : Options}
  {contents : Source → Contents} {source : Source} {text : Json.Bytes} {workload : Workload}

theorem shows_iff_of_single {output : Checked Output} {policy : Policy}
    {outcome : Policy → Except Failure Schedule} (single : options.all = false)
    (known : Policy.ofName? options.policy = some policy) :
    Shows options output outcome ↔ ShowsRun options policy output (outcome policy) := by
  simp [Shows, single, known]

theorem loadWorkload_of_document (notGenerated : options.generate = false)
    (named : options.source? = some source) (holds : contents source = .bytes text)
    (decodes : Document.ofStream text = .ok workload) :
    loadWorkload options contents = .ok workload := by
  simp only [loadWorkload, notGenerated, named]
  cases source with
  | standardInput => simp [holds, Contents.workload, decodes, Except.mapError]
  | file path => simp [holds, Contents.workload, decodes, Except.mapError]

theorem Options.generate_of_source (consistent : options.isConsistent = true)
    (named : options.source? = some source) : options.generate = false := by
  obtain ⟨path, isPath, _⟩ := Option.map_eq_some_iff.mp named
  simp only [isConsistent, isPath, Option.isSome_some, Bool.true_and, Bool.and_eq_true,
    Bool.not_eq_true'] at consistent
  exact consistent.1

theorem shows_run (loads : loadWorkload options contents = .ok workload) :
    Shows options (run options contents)
      (simulate workload.jobs (mergeConfig options workload)) := by
  unfold Shows run
  rw [loads]
  dsimp only
  split
  next => rfl
  next =>
    cases Policy.ofName? options.policy with
    | none => rfl
    | some policy =>
        dsimp only
        split
        next telling => exact shows_showEvents telling
        next silent => exact shows_showOne (by simpa using silent)

section Limits

variable {config : Config} {limit : UInt64} {output : Checked Output} {jobs : List Spec}

theorem shows_congr {outcome otherOutcome : Policy → Except Failure Schedule}
    (same : ∀ policy ∈ options.policies, outcome policy = otherOutcome policy)
    (shows : Shows options output outcome) : Shows options output otherOutcome := by
  unfold Shows Options.policies at *
  split at shows
  next comparing =>
    rw [if_pos comparing] at same ⊢
    rw [shows]
    exact congrArg (showResults options)
      (List.map_congr_left fun policy member => by rw [same policy member])
  next single =>
    rw [if_neg single] at same ⊢
    cases known : Policy.ofName? options.policy with
    | none => simpa [known] using shows
    | some policy =>
        rw [known] at shows same
        have told := same policy (by simp)
        dsimp only at shows ⊢
        rwa [← told]

/-- The output of a session tells its runs apart from those with another limit on ticks.  Of many
policies the first one does, which needs no quantum, so that it depends on the limits the most. -/
theorem shows_limited_iff (other : UInt64)
    (shows : Shows options output (simulate jobs (config.limited limit))) :
    Shows options output (simulate jobs (config.limited other)) ↔
      limit = other ∨ ∀ policy ∈ options.policies, Indifferent jobs config policy limit other := by
  constructor
  · intro showsOther
    refine or_iff_not_imp_left.mpr fun different => ?_
    unfold Shows Options.policies at *
    split at shows
    next comparing =>
      rw [if_pos comparing] at showsOther ⊢
      have same := outcome_eq_of_showAll (shows.symm.trans showsOther)
      intro policy _
      exact ((simulate_limited_iff.mp same).resolve_left different).of_unsliced rfl
    next single =>
      rw [if_neg single] at showsOther ⊢
      intro policy isPolicy
      rw [Option.mem_toList.mp isPolicy] at shows showsOther
      exact (simulate_limited_iff.mp (shows.outcome_eq showsOther)).resolve_left different
  · intro settled
    refine shows_congr (fun policy member => simulate_limited_iff.mpr ?_) shows
    exact settled.imp_right fun indifferent => indifferent policy member

end Limits

/-- A session that reads a document shows the outcomes of its runs with the settings that it is
asked for exactly if the limit on ticks is given with the arguments, or the document leaves it at
the default, or no run depends on which of the two limits it has. -/
theorem run_as_requested_iff (reads : readArguments none arguments = some given)
    (understood : Options.ofArguments? arguments = some options)
    (named : options.source? = some source) (holds : contents source = .bytes text)
    (decodes : Document.ofStream text = .ok workload) :
    Shows options (run options contents) (simulate workload.jobs (requestedConfig given workload)) ↔
      (valueOf? .maxTicks given).isSome ∨
        (workload.config.getD {}).maxTicks = defaultMaxTicks ∨
        ∀ policy ∈ options.policies, Indifferent workload.jobs (requestedConfig given workload)
          policy defaultMaxTicks (workload.config.getD {}).maxTicks := by
  obtain ⟨_, _, consistent⟩ := Options.given_of_arguments reads understood
  have loads := loadWorkload_of_document (Options.generate_of_source consistent named) named
    holds decodes
  have shows := shows_run loads
  rw [mergeConfig_eq_limited reads understood] at shows
  have limit := Options.maxTicks_of_arguments reads understood
  refine (shows_limited_iff (requestedConfig given workload).maxTicks shows).trans ?_
  cases isGiven : valueOf? .maxTicks given with
  | some value =>
      have same : options.maxTicks = (requestedConfig given workload).maxTicks := by
        rw [isGiven, Option.elim_some] at limit
        simp [requestedConfig, isGiven, ← limit]
      simp [same]
  | none =>
      have absent : options.maxTicks = defaultMaxTicks := by simpa [isGiven] using limit
      have document : (requestedConfig given workload).maxTicks =
          (workload.config.getD {}).maxTicks := by
        simp [requestedConfig, isGiven]
      rw [absent, document, eq_comm]
      simp

/-- A limit that is given with the arguments overrides that of the document. -/
theorem run_as_requested_iff_given_limit :
    let text := Json.ascii
      "\x7b\"processes\": [[0, 10]], \"config\": \x7b\"quantum\": 3, \"maxTicks\": 5\x7d\x7d"
    let given : List Given :=
      [.setting .workload "-", .setting .policy "rr", .setting .maxTicks "20"]
    ∃ options workload, Options.ofArguments? ["-w", "-", "-prr", "--max-ticks=20"] = some options ∧
      Document.ofStream text = .ok workload ∧
      requestedConfig given workload = { quantum := some 3, maxTicks := 20 } ∧
      Shows options (run options fun _ => .bytes text)
        (simulate workload.jobs (requestedConfig given workload)) := by
  intro text given
  have reads : readArguments none ["-w", "-", "-prr", "--max-ticks=20"] = some given := by
    decide +kernel
  have understood : Options.ofArguments? ["-w", "-", "-prr", "--max-ticks=20"] =
      some { workload := some "-", policy := "rr", maxTicks := 20 } := by
    decide +kernel
  have decodes : Document.ofStream text =
      .ok { jobs := [⟨0, 10, 0⟩], config := some { quantum := some 3, maxTicks := 5 } } :=
    toOption_eq_some_iff.mp (by decide +kernel)
  refine ⟨_, _, understood, decodes, by decide +kernel, ?_⟩
  exact (run_as_requested_iff reads understood rfl rfl decodes).mpr (.inl rfl)

/-- Where no limit is given, a document's own does not keep a run from going on beyond it. -/
theorem run_beyond_document_limit :
    let text := Json.ascii
      "\x7b\"processes\":[[0,10]],\"config\":\x7b\"maxTicks\":5\x7d\x7d"
    ∃ options workload, readArguments none ["-w", "-"] = some [.setting .workload "-"] ∧
      Options.ofArguments? ["-w", "-"] = some options ∧
      Document.ofStream text = .ok workload ∧
      simulate workload.jobs (requestedConfig [.setting .workload "-"] workload) .fcfs =
        .error (.refused (.divergence 5)) ∧
      (run options fun _ => .bytes text).map (·.status) = .ok 0 ∧
      ¬Shows options (run options fun _ => .bytes text)
        (simulate workload.jobs (requestedConfig [.setting .workload "-"] workload)) := by
  intro text
  have decodes : Document.ofStream text =
      .ok { jobs := [⟨0, 10, 0⟩], config := some { maxTicks := 5 } } :=
    toOption_eq_some_iff.mp (by decide +kernel)
  have valid : validate [⟨0, 10, 0⟩] = .ok () := by decide
  have known : Policy.ofName? "fcfs" = some .fcfs := by decide +kernel
  have requested : simulate [⟨0, 10, 0⟩] (Config.limited {} 5) .fcfs =
      .error (.refused (.divergence 5)) := by
    have ends := @simulate_of_equipped _ {} .fcfs 5 valid (by decide) (by decide)
    rwa [if_neg (by decide)] at ends
  obtain ⟨schedule, merged⟩ : ∃ schedule,
      simulate [⟨0, 10, 0⟩] (Config.limited {} defaultMaxTicks) .fcfs = .ok schedule := by
    have ends := @simulate_of_equipped _ {} .fcfs defaultMaxTicks valid (by decide) (by decide)
    rwa [if_pos (by decide)] at ends
  have loads : loadWorkload { workload := some "-" } (fun _ => .bytes text) =
      .ok { jobs := [⟨0, 10, 0⟩], config := some { maxTicks := 5 } } :=
    loadWorkload_of_document rfl rfl rfl decodes
  have isMerged : mergeConfig { workload := some "-" }
      { jobs := [⟨0, 10, 0⟩], config := some { maxTicks := 5 } } =
        Config.limited {} defaultMaxTicks := by decide
  have isRequested : requestedConfig [.setting .workload "-"]
      { jobs := [⟨0, 10, 0⟩], config := some { maxTicks := 5 } } = Config.limited {} 5 := by
    decide
  have completes : (run { workload := some "-" } fun _ => .bytes text).map (·.status) = .ok 0 := by
    have shows := shows_run loads
    rw [isMerged, shows_iff_of_single rfl known, merged] at shows
    exact shows.status_of_ok
  refine ⟨{ workload := some "-" }, _, by decide +kernel, by decide +kernel, decodes, ?_⟩
  rw [isRequested]
  refine ⟨requested, completes, fun shows => ?_⟩
  rw [shows_iff_of_single rfl known, requested] at shows
  cases completes.symm.trans shows.status_of_refused

end CpuScheduling.CommandLine
