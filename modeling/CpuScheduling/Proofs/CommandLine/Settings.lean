import CpuScheduling.CommandLine.Session
import CpuScheduling.Proofs.Simulation.TickLimit
import Mathlib.Data.Option.Basic

/-!
What the arguments say of the settings.  No option comes twice, so that every setting has the
value that was given for it, or its default.
-/

namespace CpuScheduling.CommandLine

def Given.value? (setting : Setting) : Given → Option String
  | .flag _ => none
  | .setting other value => if other = setting then some value else none

def valueOf? (setting : Setting) (given : List Given) : Option String :=
  given.findSome? (·.value? setting)

theorem valueOf?_cons (setting : Setting) (first : Given) (rest : List Given) :
    valueOf? setting (first :: rest) = (first.value? setting).or (valueOf? setting rest) := by
  cases told : first.value? setting <;> simp [valueOf?, told]

theorem Given.kind_of_value? {setting : Setting} {value : String} :
    ∀ {item : Given}, item.value? setting = some value → item.kind = .setting setting
  | .setting other _, told => by
      by_cases same : other = setting
      · rw [kind, same]
      · simp [value?, same] at told

theorem valueOf?_eq_none {setting : Setting} {given : List Given}
    (absent : OptionKind.setting setting ∉ given.map Given.kind) : valueOf? setting given = none := by
  refine List.findSome?_eq_none_iff.mpr fun item member => ?_
  cases told : item.value? setting with
  | none => rfl
  | some value => exact absurd (List.mem_map.mpr ⟨item, member, Given.kind_of_value? told⟩) absent

namespace Options

variable {Alpha : Type} {field : Options → Option Alpha} {setting : Setting}
  {parse : String → Option Alpha} {options start : Options} {given : List Given}

/-- An option leaves the field alone, unless it is the setting of the field. -/
def Reads (field : Options → Option Alpha) (setting : Setting) (parse : String → Option Alpha) :
    Prop :=
  ∀ {options next : Options} {item : Given}, give? options item = some next →
    field next = (item.value? setting).elim (field options) parse

theorem fields_of_give {options next : Options} {item : Given}
    (gives : give? options item = some next) :
    next.quantum = (item.value? .quantum).elim options.quantum word64? ∧
      next.agingIncrement = (item.value? .agingIncrement).elim options.agingIncrement word32? ∧
      some next.maxTicks = (item.value? .maxTicks).elim (some options.maxTicks) word64? := by
  cases item with
  | flag flag => cases flag <;> cases gives <;> exact ⟨rfl, rfl, rfl⟩
  | setting setting value =>
      cases setting with
      | policy =>
          cases gives
          exact ⟨rfl, rfl, rfl⟩
      | workload =>
          simp only [give?, set?, Option.ite_none_left_eq_some] at gives
          cases gives.2
          exact ⟨rfl, rfl, rfl⟩
      | _ =>
          obtain ⟨word, parsed, rfl⟩ := Option.map_eq_some_iff.mp gives
          simp [Given.value?, parsed]

/-- Where no option comes twice, a field has the value that is given, or the one that it had. -/
theorem Reads.foldlM (reads : Reads field setting parse) (once : (given.map Given.kind).Nodup)
    (gives : given.foldlM give? start = some options) :
    field options = (valueOf? setting given).elim (field start) parse := by
  induction given generalizing start with
  | nil =>
      cases gives
      rfl
  | cons item rest inductionHypothesis =>
      rw [List.foldlM_cons] at gives
      obtain ⟨next, first, others⟩ := Option.bind_eq_some_iff.mp gives
      obtain ⟨alone, rest⟩ := List.nodup_cons.mp once
      rw [inductionHypothesis rest others, reads first, valueOf?_cons]
      cases told : item.value? setting with
      | none => rfl
      | some value =>
          rw [valueOf?_eq_none (Given.kind_of_value? told ▸ alone)]
          rfl

end Options

/-- The settings that a session is asked for: those that are given, else those of the document,
else the defaults. -/
def requestedConfig (given : List Given) (workload : Workload) : Config :=
  let config := workload.config.getD {}
  { quantum := (valueOf? .quantum given).bind word64? <|> config.quantum
    agingIncrement := (valueOf? .agingIncrement given).bind word32? <|> config.agingIncrement
    maxTicks := ((valueOf? .maxTicks given).bind word64?).getD config.maxTicks }

section Merging

variable {arguments : List String} {given : List Given} {options : Options}
  (reads : readArguments none arguments = some given)
  (understood : Options.ofArguments? arguments = some options)

include reads understood

theorem Options.given_of_arguments :
    (given.map Given.kind).Nodup ∧ given.foldlM give? {} = some options ∧
      options.isConsistent = true := by
  simp only [Options.ofArguments?, reads, Option.bind_eq_bind, Option.bind_some,
    Option.bind_eq_some_iff, Option.guard_eq_some'] at understood
  obtain ⟨_, once, result, gives, _, consistent, same⟩ := understood
  cases same
  exact ⟨once, gives, consistent⟩

theorem Options.maxTicks_of_arguments :
    some options.maxTicks = (valueOf? .maxTicks given).elim (some defaultMaxTicks) word64? := by
  obtain ⟨once, gives, _⟩ := given_of_arguments reads understood
  exact Reads.foldlM (fun gives => (fields_of_give gives).2.2) once gives

/-- A session has the settings that it is asked for, but for the limit on ticks. -/
theorem mergeConfig_eq_limited (workload : Workload) :
    mergeConfig options workload = (requestedConfig given workload).limited options.maxTicks := by
  obtain ⟨once, gives, _⟩ := Options.given_of_arguments reads understood
  have quantum : options.quantum = (valueOf? .quantum given).bind word64? := by
    rw [Options.Reads.foldlM (fun gives => (Options.fields_of_give gives).1) once gives]
    cases valueOf? .quantum given <;> rfl
  have aging : options.agingIncrement = (valueOf? .agingIncrement given).bind word32? := by
    rw [Options.Reads.foldlM (fun gives => (Options.fields_of_give gives).2.1) once gives]
    cases valueOf? .agingIncrement given <;> rfl
  rw [mergeConfig, quantum, aging]
  rfl

end Merging

end CpuScheduling.CommandLine
