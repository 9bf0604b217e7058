import CpuScheduling.Proofs.Json.Grammar
import CpuScheduling.Workload.Document
import Mathlib.Data.List.Forall2

/-!
Which documents hold a workload, and which one.  A document describes a workload in terms of JSON
values alone: which keys an object has, how often, and what stands under them.  Reading a text
yields the workload that it describes, and refuses every text that describes none.
-/

namespace CpuScheduling.Document

open Json (Bytes Value ascii)

/-- What an object holds under the names of a field: nothing, or one value under one of them. -/
inductive IsField (names : List Bytes) (members : List (Bytes × Value)) : Option Value → Prop
  | missing (nowhere : ∀ entry ∈ members, entry.1 ∉ names) : IsField names members none
  | once {name : Bytes} {value : Value} {before behind : List (Bytes × Value)}
      (whole : members = before ++ (name, value) :: behind) (isName : name ∈ names)
      (noneBefore : ∀ entry ∈ before, entry.1 ∉ names)
      (noneBehind : ∀ entry ∈ behind, entry.1 ∉ names) : IsField names members (some value)

/-- What stands in the fields of a record: an object that names them, or a list of them in order
that may end early. -/
inductive IsRecord (names : FieldNames) : Value → Fields → Prop
  | object {members : List (Bytes × Value)} {first second third : Option Value}
      (isFirst : IsField names.first members first)
      (isSecond : IsField names.second members second)
      (isThird : IsField names.third members third) :
      IsRecord names (.object members) ⟨first, second, third⟩
  | list {values : List Value} (short : values.length ≤ 3) :
      IsRecord names (.array values) ⟨values[0]?, values[1]?, values[2]?⟩

def IsWord64 (value : Value) (word : UInt64) : Prop :=
  value = .natural word.toNat

def IsWord32 (value : Value) (word : UInt32) : Prop :=
  value = .natural word.toNat

inductive IsNullable {Alpha : Type} (isContent : Value → Alpha → Prop) :
    Value → Option Alpha → Prop
  | null : IsNullable isContent .null none
  | given {value : Value} {content : Alpha} (holds : isContent value content) :
      IsNullable isContent value (some content)

inductive IsOptional {Alpha : Type} (default : Alpha) (isContent : Value → Alpha → Prop) :
    Option Value → Alpha → Prop
  | missing : IsOptional default isContent none default
  | written {value : Value} {content : Alpha} (holds : isContent value content) :
      IsOptional default isContent (some value) content

/-- A job: its arrival and its service, each under one of two names, and maybe its priority. -/
inductive IsSpec : Value → Spec → Prop
  | record {value arrival service : Value} {priority : Option Value} {spec : Spec}
      (isRecord : IsRecord
        { first := [ascii "arrivalTime", ascii "creationTime"]
          second := [ascii "serviceDuration", ascii "duration"]
          third := [ascii "priority"] }
        value ⟨some arrival, some service, priority⟩)
      (isArrival : IsWord64 arrival spec.arrival) (isService : IsWord64 service spec.service)
      (isPriority : IsOptional 0 IsWord32 priority spec.priority) : IsSpec value spec

inductive IsConfig : Value → Config → Prop
  | record {value : Value} {quantum increment limit : Option Value} {config : Config}
      (isRecord : IsRecord
        { first := [ascii "quantum"]
          second := [ascii "agingIncrement", ascii "agingRate"]
          third := [ascii "maxTicks"] }
        value ⟨quantum, increment, limit⟩)
      (isQuantum : IsOptional none (IsNullable IsWord64) quantum config.quantum)
      (isIncrement : IsOptional none (IsNullable IsWord32) increment config.agingIncrement)
      (isLimit : IsOptional 100000 IsWord64 limit config.maxTicks) : IsConfig value config

/-- The workload that a document describes. -/
inductive Describes : Value → Workload → Prop
  | bare {values : List Value} {specs : List Spec} (areSpecs : List.Forall₂ IsSpec values specs) :
      Describes (.array values) ⟨specs, none⟩
  | request {members : List (Bytes × Value)} {values : List Value} {specs : List Spec}
      {settings : Option Value} {config : Option Config}
      (isJobs : IsField [ascii "processes"] members (some (.array values)))
      (areSpecs : List.Forall₂ IsSpec values specs)
      (isSettings : IsField [ascii "config"] members settings)
      (isConfig : IsOptional none (IsNullable IsConfig) settings config) :
      Describes (.object members) ⟨specs, config⟩

section Fields

variable {names : List Bytes} {members : List (Bytes × Value)} {field : Option Value}

theorem field?_eq_some_iff : field? names members = some field ↔ IsField names members field := by
  have outside {before : List (Bytes × Value)} :
      (∀ entry ∈ before, ¬names.contains entry.1 = true) ↔ ∀ entry ∈ before, entry.1 ∉ names := by
    simp
  unfold field?
  constructor
  · intro found
    split at found
    next none =>
      cases found
      exact .missing (outside.mp (List.filter_eq_nil_iff.mp none))
    next entry one =>
      cases found
      obtain ⟨before, behind, whole, noneBefore, isName, others⟩ := List.filter_eq_cons_iff.mp one
      exact .once whole (by simpa using isName) (outside.mp noneBefore)
        (outside.mp (List.filter_eq_nil_iff.mp others))
    next => cases found
  · rintro (nowhere | ⟨rfl, isName, noneBefore, noneBehind⟩)
    · rw [List.filter_eq_nil_iff.mpr (outside.mpr nowhere)]
    · rw [List.filter_append, List.filter_eq_nil_iff.mpr (outside.mpr noneBefore),
        List.filter_cons_of_pos (by simpa using isName),
        List.filter_eq_nil_iff.mpr (outside.mpr noneBehind)]
      rfl

theorem ofValue?_eq_some_iff {names : FieldNames} {value : Value} {fields : Fields} :
    Fields.ofValue? names value = some fields ↔ IsRecord names value fields := by
  constructor
  · intro found
    unfold Fields.ofValue? at found
    split at found
    next =>
      cases found
      exact .list (by simp)
    next =>
      cases found
      exact .list (by simp)
    next =>
      cases found
      exact .list (by simp)
    next =>
      cases found
      exact .list (by simp)
    next members =>
      simp only [Option.bind_eq_bind, Option.bind_eq_some_iff, field?_eq_some_iff, Option.pure_def,
        Option.some.injEq] at found
      obtain ⟨first, isFirst, second, isSecond, third, isThird, rfl⟩ := found
      exact .object isFirst isSecond isThird
    next => cases found
  · rintro (⟨isFirst, isSecond, isThird⟩ | @⟨values, short⟩)
    · simp [Fields.ofValue?, field?_eq_some_iff.mpr isFirst, field?_eq_some_iff.mpr isSecond,
        field?_eq_some_iff.mpr isThird]
    · match values, short with
      | [], _ => rfl
      | [_], _ => rfl
      | [_, _], _ => rfl
      | [_, _, _], _ => rfl
      | _ :: _ :: _ :: _ :: _, short =>
          simp only [List.length_cons] at short
          omega

end Fields

section Contents

variable {Alpha : Type} {read : Value → Option Alpha} {isContent : Value → Alpha → Prop}

theorem word64?_eq_some_iff (value : Value) (word : UInt64) :
    word64? value = some word ↔ IsWord64 value word := by
  constructor
  · intro found
    unfold word64? at found
    split at found
    next number =>
      split at found
      next fits =>
        cases found
        rw [IsWord64, UInt64.toNat_ofNat_of_lt' fits]
      next => cases found
    next => cases found
  · rintro rfl
    rw [word64?, if_pos word.toNat_lt, UInt64.ofNat_toNat]

theorem word32?_eq_some_iff (value : Value) (word : UInt32) :
    word32? value = some word ↔ IsWord32 value word := by
  constructor
  · intro found
    unfold word32? at found
    split at found
    next number =>
      split at found
      next fits =>
        cases found
        rw [IsWord32, UInt32.toNat_ofNat_of_lt' fits]
      next => cases found
    next => cases found
  · rintro rfl
    rw [word32?, if_pos word.toNat_lt, UInt32.ofNat_toNat]

theorem orDefault?_eq_some_iff
    (reads : ∀ value content, read value = some content ↔ isContent value content)
    {default content : Alpha} {field : Option Value} :
    orDefault? default read field = some content ↔ IsOptional default isContent field content := by
  constructor
  · intro found
    cases field with
    | none =>
        cases found
        exact .missing
    | some value => exact .written ((reads value content).mp found)
  · rintro (_ | holds)
    · rfl
    · exact (reads _ _).mpr holds

theorem nullable?_eq_some_iff
    (reads : ∀ value content, read value = some content ↔ isContent value content)
    (null : read .null = none) (value : Value) (content : Option Alpha) :
    nullable? read value = some content ↔ IsNullable isContent value content := by
  constructor
  · intro found
    unfold nullable? at found
    split at found
    next =>
      cases found
      exact .null
    next =>
      obtain ⟨inner, readsInner, rfl⟩ := Option.map_eq_some_iff.mp found
      exact .given ((reads _ _).mp readsInner)
  · rintro (_ | @⟨value, content, holds⟩)
    · rfl
    · have readsContent := (reads _ _).mpr holds
      unfold nullable?
      split
      next => cases null.symm.trans readsContent
      next => rw [readsContent, Option.map_some]

end Contents

theorem spec?_eq_some_iff (value : Value) (spec : Spec) :
    spec? value = some spec ↔ IsSpec value spec := by
  simp only [spec?, Option.bind_eq_bind, Option.bind_eq_some_iff, ofValue?_eq_some_iff,
    word64?_eq_some_iff, orDefault?_eq_some_iff word32?_eq_some_iff, Option.pure_def,
    Option.some.injEq]
  constructor
  · rintro ⟨⟨_, _, third⟩, isRecord, arrival, rfl, _, isArrival, service, rfl, _, isService, _,
      isPriority, rfl⟩
    exact .record isRecord isArrival isService isPriority
  · rintro ⟨isRecord, isArrival, isService, isPriority⟩
    exact ⟨_, isRecord, _, rfl, _, isArrival, _, rfl, _, isService, _, isPriority, rfl⟩

theorem config?_eq_some_iff (value : Value) (config : Config) :
    config? value = some config ↔ IsConfig value config := by
  have words (value : Value) (content : Option UInt64) :=
    nullable?_eq_some_iff word64?_eq_some_iff rfl value content
  have increments (value : Value) (content : Option UInt32) :=
    nullable?_eq_some_iff word32?_eq_some_iff rfl value content
  simp only [config?, Option.bind_eq_bind, Option.bind_eq_some_iff, ofValue?_eq_some_iff,
    orDefault?_eq_some_iff words, orDefault?_eq_some_iff increments,
    orDefault?_eq_some_iff word64?_eq_some_iff, Option.pure_def, Option.some.injEq]
  constructor
  · rintro ⟨fields, isRecord, _, isQuantum, _, isIncrement, _, isLimit, rfl⟩
    exact .record isRecord isQuantum isIncrement isLimit
  · rintro ⟨isRecord, isQuantum, isIncrement, isLimit⟩
    exact ⟨_, isRecord, _, isQuantum, _, isIncrement, _, isLimit, rfl⟩

theorem mapM_spec?_eq_some_iff {values : List Value} {specs : List Spec} :
    values.mapM spec? = some specs ↔ List.Forall₂ IsSpec values specs := by
  induction values generalizing specs with
  | nil => simp
  | cons value values inductionHypothesis =>
      simp only [List.mapM_cons, Option.bind_eq_bind, Option.bind_eq_some_iff, spec?_eq_some_iff,
        inductionHypothesis, Option.pure_def, Option.some.injEq]
      constructor
      · rintro ⟨spec, isSpec, others, areSpecs, rfl⟩
        exact .cons isSpec areSpecs
      · rintro (_ | ⟨isSpec, areSpecs⟩)
        exact ⟨_, isSpec, _, areSpecs, rfl⟩

theorem specs?_eq_some_iff {value : Value} {specs : List Spec} :
    specs? value = some specs ↔
      ∃ values, value = .array values ∧ List.Forall₂ IsSpec values specs := by
  constructor
  · intro found
    unfold specs? at found
    split at found
    next values => exact ⟨values, rfl, mapM_spec?_eq_some_iff.mp found⟩
    next => cases found
  · rintro ⟨values, rfl, areSpecs⟩
    exact mapM_spec?_eq_some_iff.mpr areSpecs

theorem workload?_eq_some_iff {value : Value} {workload : Workload} :
    workload? value = some workload ↔ Describes value workload := by
  have settings (value : Value) (content : Option Config) :=
    nullable?_eq_some_iff config?_eq_some_iff rfl value content
  constructor
  · intro found
    unfold workload? at found
    split at found
    next values =>
      simp only [Option.bind_eq_bind, Option.bind_eq_some_iff, specs?_eq_some_iff, Option.pure_def,
        Option.some.injEq] at found
      obtain ⟨specs, ⟨_, ⟨⟩, areSpecs⟩, rfl⟩ := found
      exact .bare areSpecs
    next members =>
      simp only [Option.bind_eq_bind, Option.bind_eq_some_iff, field?_eq_some_iff,
        specs?_eq_some_iff, orDefault?_eq_some_iff settings, Option.pure_def,
        Option.some.injEq] at found
      obtain ⟨_, isJobs, _, isSettings, _, rfl, _, ⟨values, rfl, areSpecs⟩, _, isConfig, rfl⟩ := found
      exact .request isJobs areSpecs isSettings isConfig
    next => cases found
  · rintro (areSpecs | ⟨isJobs, areSpecs, isSettings, isConfig⟩)
    · simp only [workload?, specs?_eq_some_iff.mpr ⟨_, rfl, areSpecs⟩, Option.bind_eq_bind,
        Option.bind_some, Option.pure_def]
    · simp only [workload?, field?_eq_some_iff.mpr isJobs, field?_eq_some_iff.mpr isSettings,
        specs?_eq_some_iff.mpr ⟨_, rfl, areSpecs⟩, (orDefault?_eq_some_iff settings).mpr isConfig,
        Option.bind_eq_bind, Option.bind_some, Option.pure_def]

/-- A text is read as a workload where it is one JSON value that describes the workload. -/
theorem read_eq_ok_iff {mode : Json.Mode} (wanted : mode.wanted = true) {text : Bytes}
    {workload : Workload} : read mode text = .ok workload ↔
      ∃ value, Json.IsText value text ∧ Describes value workload := by
  simp only [read, bind_eq_ok_iff, mapError_eq_ok_iff, Json.isText_iff wanted]
  constructor
  · rintro ⟨⟨value, rest⟩, reads, goesOn⟩
    dsimp only at goesOn
    split at goesOn
    next => cases goesOn
    next found describes =>
      obtain ⟨⟨⟩, finished, ends⟩ := bind_eq_ok_iff.mp goesOn
      cases ends
      exact ⟨value, ⟨rest, reads, mapError_eq_ok_iff.mp finished⟩,
        workload?_eq_some_iff.mp describes⟩
  · rintro ⟨value, ⟨rest, reads, finished⟩, describes⟩
    refine ⟨(value, rest), reads, ?_⟩
    dsimp only
    rw [workload?_eq_some_iff.mpr describes, finished]
    rfl

theorem ofText_eq_ok_iff {text : String} {workload : Workload} :
    ofText text = .ok workload ↔
      ∃ value, Json.IsText value (bytesOf text) ∧ Describes value workload :=
  mapError_eq_ok_iff.trans (read_eq_ok_iff rfl)

/-- Every text that writes a description of a workload is read as that workload. -/
theorem ofText_of_describes {text : String} {value : Value} {workload : Workload}
    (isText : Json.IsText value (bytesOf text)) (describes : Describes value workload) :
    ofText text = .ok workload :=
  ofText_eq_ok_iff.mpr ⟨value, isText, describes⟩

/-- A request with numbers of every form under an unknown key, settings as a list and a job of each
shape. -/
def sampleRequest : String :=
  "\x7b\"x\": [null, 1.5, 1e3, 18446744073709551616], \"config\": [4], " ++
    "\"processes\": [[0, 3], \x7b\"duration\": 7, \"creationTime\": 1\x7d]\x7d"

theorem ofText_of_describes_sampleRequest : ∃ value, Json.IsText value (bytesOf sampleRequest) ∧
    Describes value ⟨[⟨0, 3, 0⟩, ⟨1, 7, 0⟩], some { quantum := some 4 }⟩ ∧
    ofText sampleRequest = .ok ⟨[⟨0, 3, 0⟩, ⟨1, 7, 0⟩], some { quantum := some 4 }⟩ := by
  have reads : (ofText sampleRequest).toOption =
      some ⟨[⟨0, 3, 0⟩, ⟨1, 7, 0⟩], some { quantum := some 4 }⟩ := by
    decide +kernel
  obtain ⟨value, isText, describes⟩ := ofText_eq_ok_iff.mp (toOption_eq_some_iff.mp reads)
  exact ⟨value, isText, describes, ofText_of_describes isText describes⟩

/-- A text is read as the workload that it describes, or it describes none and is refused as a
malformed workload. -/
theorem ofText_described_or_refused (text : String) :
    (∃ value workload, Json.IsText value (bytesOf text) ∧ Describes value workload ∧
        ofText text = .ok workload) ∨
      (¬∃ value workload, Json.IsText value (bytesOf text) ∧ Describes value workload) ∧
        ∃ problem, ofText text = .error (.malformedWorkload problem) := by
  cases reads : ofText text with
  | ok workload =>
      obtain ⟨value, isText, describes⟩ := ofText_eq_ok_iff.mp reads
      exact .inl ⟨value, workload, isText, describes, rfl⟩
  | error refusal =>
      refine .inr ⟨?_, ?_⟩
      · rintro ⟨value, workload, isText, describes⟩
        cases reads.symm.trans (ofText_eq_ok_iff.mpr ⟨value, isText, describes⟩)
      · unfold ofText at reads
        cases problem : read {} (bytesOf text) with
        | ok workload =>
            rw [problem] at reads
            cases reads
        | error found =>
            rw [problem] at reads
            cases reads
            exact ⟨found, rfl⟩

end CpuScheduling.Document
