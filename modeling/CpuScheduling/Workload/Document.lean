import CpuScheduling.Config
import CpuScheduling.Json.Value
import CpuScheduling.Job
import CpuScheduling.Policy

/-!
Workloads as JSON documents.

A document is a list of jobs, or an object with the jobs under `processes` and
maybe settings under `config`.  A record (a job or settings) is an object, whose
unknown keys are ignored and whose fields come at most once, or a list of its
fields in order.
-/

namespace CpuScheduling

structure Workload where
  jobs : List Spec
  config : Option Config := none
  deriving DecidableEq

namespace Document

open Json (Bytes Value ascii)

/-- The value of a field by any of its names: `none` where it comes more than
once, `some none` where it is missing. -/
def field? (names : List Bytes) (members : List (Bytes × Value)) : Option (Option Value) :=
  match members.filter fun entry => names.contains entry.1 with
  | [] => some none
  | [entry] => some (some entry.2)
  | _ => none

structure FieldNames where
  first : List Bytes
  second : List Bytes
  third : List Bytes

def FieldNames.all (names : FieldNames) : List Bytes :=
  names.first ++ names.second ++ names.third

def specNames : FieldNames where
  first := [ascii "arrivalTime", ascii "creationTime"]
  second := [ascii "serviceDuration", ascii "duration"]
  third := [ascii "priority"]

def configNames : FieldNames where
  first := [ascii "quantum"]
  second := [ascii "agingIncrement", ascii "agingRate"]
  third := [ascii "maxTicks"]

structure Fields where
  first : Option Value := none
  second : Option Value := none
  third : Option Value := none

def Fields.ofValue? (names : FieldNames) : Value → Option Fields
  | .array [] => some {}
  | .array [first] => some { first := some first }
  | .array [first, second] => some { first := some first, second := some second }
  | .array [first, second, third] =>
      some { first := some first, second := some second, third := some third }
  | .object members => do
      return {
        first := ← field? names.first members
        second := ← field? names.second members
        third := ← field? names.third members }
  | _ => none

def word64? : Value → Option UInt64
  | .natural value => if value < UInt64.size then some (UInt64.ofNat value) else none
  | _ => none

def word32? : Value → Option UInt32
  | .natural value => if value < UInt32.size then some (UInt32.ofNat value) else none
  | _ => none

def nullable? {Alpha : Type} (read : Value → Option Alpha) : Value → Option (Option Alpha)
  | .null => some none
  | value => (read value).map some

def orDefault? {Alpha : Type} (default : Alpha) (read : Value → Option Alpha) :
    Option Value → Option Alpha
  | none => some default
  | some value => read value

def spec? (value : Value) : Option Spec := do
  let fields ← Fields.ofValue? specNames value
  return {
    arrival := ← word64? (← fields.first)
    service := ← word64? (← fields.second)
    priority := ← orDefault? 0 word32? fields.third }

/-- Settings; every field may be missing, and two of them may be null. -/
def config? (value : Value) : Option Config := do
  let fields ← Fields.ofValue? configNames value
  return {
    quantum := ← orDefault? none (nullable? word64?) fields.first
    agingIncrement := ← orDefault? none (nullable? word32?) fields.second
    maxTicks := ← orDefault? defaultMaxTicks word64? fields.third }

def specs? : Value → Option (List Spec)
  | .array values => values.mapM spec?
  | _ => none

def workload? : Value → Option Workload
  | .array values => do return { jobs := ← specs? (.array values) }
  | .object members => do
      let jobs ← field? [ascii "processes"] members
      let config ← field? [ascii "config"] members
      return {
        jobs := ← specs? (← jobs)
        config := ← orDefault? none (nullable? config?) config }
  | _ => none

/-- The workload of a text.  The text is first read as one value, so a problem
of its form comes before one of its content; what follows the value counts only
where the value holds a workload. -/
def read (mode : Json.Mode) (text : Bytes) : Except Malformed Workload := do
  let stopping {Alpha : Type} (result : Except Json.Stop Alpha) : Except Malformed Alpha :=
    result.mapError fun stop => .json (.of text stop)
  let (value, rest) ← stopping (Json.value mode Json.maxDepth text)
  match workload? value with
  | none => .error .noWorkload
  | some workload =>
      stopping (Json.finish rest)
      return workload

def bytesOf (text : String) : Bytes :=
  text.toUTF8.toList

def ofText (text : String) : Except Refusal Workload :=
  (read {} (bytesOf text)).mapError .malformedWorkload

/-- The workload of bytes that come one at a time, or why it is refused. -/
def ofStream (bytes : Bytes) : Except Refusal Workload :=
  (read { stream := true } bytes).mapError .malformedWorkload

/-- A record that stands alone.  The values of keys that name no field are passed
over without a look at what they mean, however deep they are nested. -/
def record (names : FieldNames) (text : Bytes) : Except Json.Stop Value := do
  let wanted : Json.Mode := {}
  let passedOver : Json.Mode := { wanted := false }
  let (value, rest) ←
    match Json.skipBlank text with
    | letter :: rest =>
        if letter = Json.byte '{' then
          let item (key : Bytes) : Bytes → Except Json.Stop (Value × Bytes) :=
            if names.all.contains key then Json.value wanted Json.maxDepth
            else Json.value passedOver text.length
          (Json.members true item rest).map fun (members, rest) => (Value.object members, rest)
        else Json.value wanted Json.maxDepth text
    | [] => Json.value wanted Json.maxDepth text
  Json.finish rest
  return value

def readSpec? (text : String) : Option Spec :=
  (record specNames (bytesOf text)).toOption.bind spec?

def readConfig? (text : String) : Option Config :=
  (record configNames (bytesOf text)).toOption.bind config?

def readPolicy? (text : String) : Option Policy := do
  let (value, rest) ← (Json.value {} Json.maxDepth (bytesOf text)).toOption
  (Json.finish rest).toOption
  match value with
  | .string content => (String.fromUTF8? ⟨content.toArray⟩).bind Policy.ofName?
  | _ => none

end Document

end CpuScheduling
