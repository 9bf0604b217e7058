import CpuScheduling.CommandLine.Contents
import CpuScheduling.CommandLine.Options
import CpuScheduling.CommandLine.Report
import CpuScheduling.Workload.Document

/-!
What a run of the command line prints.  A session depends on the options and on
the document that they name, which is read beforehand; a broken check of the
machine is no output but a fault.
-/

namespace CpuScheduling.CommandLine

inductive Source where
  | standardInput
  | file (path : String)
  deriving DecidableEq

def Options.source? (options : Options) : Option Source :=
  options.workload.map fun path => if path = "-" then .standardInput else .file path

/-- Why a session ends early: a text and maybe what was behind it. -/
structure Complaint where
  text : String
  cause : Option String := none
  deriving DecidableEq

namespace Complaint

def ofRefusal (refusal : Refusal) : Complaint :=
  { text := refusal.message }

/-- A refusal that is reported behind what it kept from happening. -/
def behind (text : String) (refusal : Refusal) : Complaint :=
  { text := text, cause := some refusal.message }

def message (complaint : Complaint) : String :=
  "Error: " ++ complaint.text ++ "\n" ++
    match complaint.cause with
    | none => ""
    | some cause => "\nCaused by:\n    " ++ cause ++ "\n"

end Complaint

structure Output where
  status : Nat := 0
  out : String := ""
  err : String := ""
  deriving DecidableEq

def joinLines (lines : List String) : String :=
  lines.foldl (fun text line => text ++ line ++ "\n") ""

def Output.usage : Output where
  status := 2
  err := "error: the arguments are not understood\n"

def Output.failed (out : String) (complaint : Complaint) : Output where
  status := 1
  out := out
  err := complaint.message

def Contents.workload : Contents → Except Refusal Workload
  | .bytes text => Document.ofStream text
  | .unopened error | .unreadable error =>
      .error (.malformedWorkload (.unreadable error.message))

def loadWorkload (options : Options) (contents : Source → Contents) :
    Except Complaint Workload :=
  if options.generate then
    .ok { jobs := options.synthetic.workload options.seed }
  else
    match options.source? with
    | none => .error { text := "either --workload or --generate is required" }
    | some .standardInput => (contents .standardInput).workload.mapError .ofRefusal
    | some (.file path) =>
        match contents (.file path) with
        | .unopened error =>
            .error { text := "failed to open workload " ++ path, cause := some error.message }
        | opened => opened.workload.mapError (.behind ("failed to parse workload " ++ path))

/-- The settings of the document under those of the command line; the limit on
ticks is always the command line's. -/
def mergeConfig (options : Options) (workload : Workload) : Config :=
  let config := workload.config.getD {}
  { quantum := options.quantum <|> config.quantum
    agingIncrement := options.agingIncrement <|> config.agingIncrement
    maxTicks := options.maxTicks }

/-- Step until every job has finished, with a line for each event behind those
in `lines`. -/
def narrateFor : Nat → Simulation → Array String → Array String × Except Failure Simulation
  | fuel, simulation, lines =>
      if simulation.allFinished then (lines, .ok simulation)
      else if simulation.maxTicks ≤ simulation.now then
        (lines, .error (.refused (.divergence simulation.maxTicks)))
      else
        match fuel with
        | 0 => (lines, .error (.broken .stalled))
        | fuel + 1 =>
            let now := simulation.now
            match simulation.step with
            | .ok (events, next) =>
                narrateFor fuel next
                  (events.foldl (fun lines event => lines.push (eventLine now event)) lines)
            | .error fault => (lines, .error (.broken fault))

def narrate (simulation : Simulation) : Array String × Except Failure Simulation :=
  narrateFor (simulation.maxTicks - simulation.now) simulation #[]

def showEvents (workload : List Spec) (config : Config) (policy : Policy) : Checked Output :=
  let begun : Except Refusal Simulation := do
    validate workload
    Simulation.ofWorkload workload config policy
  match begun with
  | .error refusal => .ok (.failed "" (.ofRefusal refusal))
  | .ok simulation =>
      let (lines, ended) := narrate simulation
      match ended >>= Simulation.run with
      | .ok schedule => .ok { out := joinLines (lines.toList ++ table schedule) }
      | .error (.refused refusal) =>
          .ok (.failed (joinLines lines.toList) (.ofRefusal refusal))
      | .error (.broken fault) => .error fault

def showSchedule (options : Options) (schedule : Schedule) : String :=
  if options.json then (scheduleTree schedule).pretty ++ "\n"
  else joinLines (table schedule)

def showOne (options : Options) (workload : List Spec) (config : Config) (policy : Policy) :
    Checked Output :=
  match simulate workload config policy with
  | .ok schedule => .ok { out := showSchedule options schedule }
  | .error (.refused refusal) =>
      .ok (.failed "" (.behind (policy.name ++ " simulation failed") refusal))
  | .error (.broken fault) => .error fault

def partitionResults :
    List (Policy × Except Failure Schedule) → Checked (List Schedule × List String)
  | [] => .ok ([], [])
  | (policy, result) :: rest => do
      let (schedules, refusals) ← partitionResults rest
      match result with
      | .ok schedule => return (schedule :: schedules, refusals)
      | .error (.refused refusal) =>
          return (schedules, (policy.name ++ ": " ++ refusal.message) :: refusals)
      | .error (.broken fault) => .error fault

def showAll (options : Options) (workload : List Spec) (config : Config) : Checked Output := do
  let (schedules, refusals) ← partitionResults (simulateAll workload config)
  let out :=
    if options.json then (Json.Tree.array (schedules.map scheduleTree)).pretty ++ "\n"
    else joinLines (schedules.flatMap table)
  return { out := out, err := joinLines refusals }

def run (options : Options) (contents : Source → Contents) : Checked Output :=
  match loadWorkload options contents with
  | .error complaint => .ok (.failed "" complaint)
  | .ok workload =>
      let config := mergeConfig options workload
      if options.all then showAll options workload.jobs config
      else
        match Policy.ofName? options.policy with
        | none => .ok (.failed "" (.ofRefusal (.unsupportedPolicy options.policy)))
        | some policy =>
            if options.events then showEvents workload.jobs config policy
            else showOne options workload.jobs config policy

end CpuScheduling.CommandLine
