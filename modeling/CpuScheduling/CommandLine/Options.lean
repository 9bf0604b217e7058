import CpuScheduling.Decimal.Read
import CpuScheduling.Workload.Bernoulli
import CpuScheduling.Config

/-!
The options of the command line.

An option is a flag or a setting with a value.  A long option stands behind two
hyphens and may have its value behind an equals sign; short ones stand behind one
hyphen, where flags may be joined and the first setting takes the rest as its
value.  A value that is an argument of its own does not begin with a hyphen,
unless it is just one.  No option comes twice, and there are no other arguments.
-/

namespace CpuScheduling.CommandLine

inductive Flag where
  | all
  | generate
  | json
  | events
  | verbose
  deriving DecidableEq

inductive Setting where
  | policy
  | workload
  | ticks
  | arrivalChance
  | shortChance
  | shortService
  | longService
  | maxPriority
  | seed
  | quantum
  | agingIncrement
  | maxTicks
  deriving DecidableEq

inductive OptionKind where
  | flag (flag : Flag)
  | setting (setting : Setting)
  deriving DecidableEq

inductive Given where
  | flag (flag : Flag)
  | setting (setting : Setting) (value : String)
  deriving DecidableEq

def Given.kind : Given → OptionKind
  | .flag given => .flag given
  | .setting given _ => .setting given

def longNames : List (String × OptionKind) :=
  [("policy", .setting .policy), ("all", .flag .all), ("workload", .setting .workload),
    ("generate", .flag .generate), ("ticks", .setting .ticks),
    ("p-arrival", .setting .arrivalChance), ("p-short", .setting .shortChance),
    ("short", .setting .shortService), ("long", .setting .longService),
    ("max-priority", .setting .maxPriority), ("seed", .setting .seed),
    ("quantum", .setting .quantum), ("aging-increment", .setting .agingIncrement),
    ("max-ticks", .setting .maxTicks), ("json", .flag .json), ("events", .flag .events),
    ("verbose", .flag .verbose)]

def shortNames : List (Char × OptionKind) :=
  [('p', .setting .policy), ('a', .flag .all), ('w', .setting .workload),
    ('g', .flag .generate), ('q', .setting .quantum), ('j', .flag .json),
    ('e', .flag .events), ('v', .flag .verbose)]

def readLong (text : List Char) : Option (List Given × Option Setting) :=
  let name := String.ofList (text.takeWhile (· ≠ '='))
  match longNames.lookup name, text.dropWhile (· ≠ '=') with
  | some (.flag flag), [] => some ([.flag flag], none)
  | some (.setting setting), [] => some ([], some setting)
  | some (.setting setting), _ :: value =>
      some ([.setting setting (String.ofList value)], none)
  | _, _ => none

def readShort : List Char → Option (List Given × Option Setting)
  | [] => some ([], none)
  | letter :: rest =>
      match shortNames.lookup letter with
      | none => none
      | some (.flag flag) =>
          (readShort rest).map fun (given, setting) => (.flag flag :: given, setting)
      | some (.setting setting) =>
          match rest with
          | [] => some ([], some setting)
          | '=' :: value => some ([.setting setting (String.ofList value)], none)
          | value => some ([.setting setting (String.ofList value)], none)

def readArgument (argument : String) : Option (List Given × Option Setting) :=
  match argument.toList with
  | '-' :: '-' :: text => readLong text
  | '-' :: letter :: rest => readShort (letter :: rest)
  | _ => none

def isValue (argument : String) : Bool :=
  match argument.toList with
  | '-' :: _ :: _ => false
  | _ => true

/-- The options of all arguments.  Two hyphens end the options. -/
def readArguments (wanting : Option Setting) : List String → Option (List Given)
  | [] => if wanting.isSome then none else some []
  | argument :: rest =>
      match wanting with
      | some setting =>
          if isValue argument then
            (readArguments none rest).map (.setting setting argument :: ·)
          else none
      | none =>
          if argument = "--" then
            if rest.isEmpty then some [] else none
          else
            match readArgument argument with
            | none => none
            | some (given, wanting) => (readArguments wanting rest).map (given ++ ·)

def natural? (text : String) : Option Nat :=
  let digits :=
    match text.toList with
    | '+' :: rest => rest
    | all => all
  if !digits.isEmpty && digits.all Char.isDigit then some (Decimal.digitsValue digits) else none

def word64? (text : String) : Option UInt64 := do
  let value ← natural? text
  if value < UInt64.size then return UInt64.ofNat value else none

/-- A word of 32 bits; it is read as a signed number, so a zero may have a minus
sign. -/
def word32? (text : String) : Option UInt32 := do
  let (digits, negative) :=
    match text.toList with
    | '-' :: rest => (String.ofList rest, true)
    | _ => (text, false)
  guard !(negative && digits.startsWith "+")
  let value ← natural? digits
  if value < if negative then 1 else UInt32.size then return UInt32.ofNat value else none

structure Options where
  policy : String := "fcfs"
  all : Bool := false
  workload : Option String := none
  generate : Bool := false
  synthetic : Bernoulli := {}
  seed : UInt64 := 0
  quantum : Option UInt64 := none
  agingIncrement : Option UInt32 := none
  maxTicks : UInt64 := defaultMaxTicks
  json : Bool := false
  events : Bool := false
  verbose : Bool := false
  deriving DecidableEq

namespace Options

def setFlag (options : Options) : Flag → Options
  | .all => { options with all := true }
  | .generate => { options with generate := true }
  | .json => { options with json := true }
  | .events => { options with events := true }
  | .verbose => { options with verbose := true }

def set? (options : Options) (setting : Setting) (value : String) : Option Options :=
  let synthetic := options.synthetic
  match setting with
  | .policy => some { options with policy := value }
  | .workload => if value.isEmpty then none else some { options with workload := some value }
  | .ticks => (word64? value).map fun word =>
      { options with synthetic := { synthetic with ticks := word } }
  | .arrivalChance => (Decimal.read? value).map fun chance =>
      { options with synthetic := { synthetic with arrivalChance := chance } }
  | .shortChance => (Decimal.read? value).map fun chance =>
      { options with synthetic := { synthetic with shortChance := chance } }
  | .shortService => (word64? value).map fun word =>
      { options with synthetic := { synthetic with shortService := word } }
  | .longService => (word64? value).map fun word =>
      { options with synthetic := { synthetic with longService := word } }
  | .maxPriority => (word32? value).map fun word =>
      { options with synthetic := { synthetic with maxPriority := word } }
  | .seed => (word64? value).map fun word => { options with seed := word }
  | .quantum => (word64? value).map fun word => { options with quantum := some word }
  | .agingIncrement => (word32? value).map fun word =>
      { options with agingIncrement := some word }
  | .maxTicks => (word64? value).map fun word => { options with maxTicks := word }

def give? (options : Options) : Given → Option Options
  | .flag flag => some (options.setFlag flag)
  | .setting setting value => options.set? setting value

/-- A workload is read or generated, and events are those of one policy. -/
def isConsistent (options : Options) : Bool :=
  !(options.workload.isSome && options.generate) && !(options.events && options.all)

def ofArguments? (arguments : List String) : Option Options := do
  let given ← readArguments none arguments
  guard (given.map Given.kind).Nodup
  let options ← given.foldlM give? {}
  guard options.isConsistent
  return options

end Options

end CpuScheduling.CommandLine
