import CpuScheduling.Decimal.Fixed
import CpuScheduling.Json.Pretty
import CpuScheduling.Simulation

/-!
Schedules and events as they are shown: a table with averages, JSON, or a line
for each event.
-/

namespace CpuScheduling.CommandLine

def padLeft (width : Nat) (text : String) : String :=
  String.ofList (List.replicate (width - text.length) ' ') ++ text

def columnWidths : List Nat :=
  [4, 8, 8, 8, 6, 10, 10, 8]

def columnTitles : List String :=
  ["id", "arrival", "service", "priority", "start", "completion", "turnaround", "waiting"]

def row (cells : List String) : String :=
  " ".intercalate (List.zipWith padLeft columnWidths cells)

def timeCell : Option Nat → String
  | none => "-"
  | some time => toString time

def jobRow (job : Job) : String :=
  row [toString job.id, toString job.arrival, toString job.service,
    toString job.priority, timeCell job.firstStart, timeCell job.completion,
    timeCell job.turnaround, timeCell job.waiting]

def slot : Option Nat → String
  | none => "-"
  | some id => "P" ++ toString id

def table (schedule : Schedule) : List String :=
  let metrics := schedule.metrics
  let average (title : String) (value : Float) : String :=
    "Average " ++ title ++ " time: " ++ Decimal.fixed value ++ " ticks"
  ["== " ++ schedule.policy.name ++ " ==", row columnTitles] ++
    schedule.jobs.map jobRow ++
    ["trace: " ++ " ".intercalate (schedule.timeline.map slot),
      average "turnaround" metrics.averageTurnaround,
      average "waiting" metrics.averageWaiting,
      average "response" metrics.averageResponse,
      "Context switches: " ++ toString metrics.contextSwitches,
      "Total ticks: " ++ toString metrics.totalTicks ++ " (" ++
        toString metrics.idleTicks ++ " idle)"]

def eventText (name : String) (fields : List (String × String)) : String :=
  name ++ " \x7b " ++ ", ".intercalate (fields.map fun (key, value) => key ++ ": " ++ value) ++
    " \x7d"

def optionText : Option Nat → String
  | none => "None"
  | some value => "Some(" ++ toString value ++ ")"

def describe : Event → String
  | .arrival job => eventText "Arrival" [("process", toString job)]
  | .dispatch job last switched =>
      eventText "Dispatch" [("process", toString job), ("from", optionText last),
        ("switched", if switched then "true" else "false")]
  | .preempt job displacing =>
      eventText "Preempt" [("process", toString job), ("by", toString displacing)]
  | .sliceExpired job => eventText "SliceExpired" [("process", toString job)]
  | .complete job time =>
      eventText "Complete" [("process", toString job), ("time", toString time)]
  | .cpuIdle ticks => eventText "CpuIdle" [("ticks", toString ticks)]

/-- An event of the step that began at a time. -/
def eventLine (time : Nat) (event : Event) : String :=
  "t=" ++ toString time ++ " " ++ describe event

open Json (Tree)

def metricsTree (metrics : Metrics) : Tree :=
  .object [
    ("averageTurnaroundTime", .double metrics.averageTurnaround),
    ("averageWaitingTime", .double metrics.averageWaiting),
    ("averageResponseTime", .double metrics.averageResponse),
    ("totalContextSwitches", .natural metrics.contextSwitches),
    ("totalTicks", .natural metrics.totalTicks),
    ("idleTicks", .natural metrics.idleTicks)]

def traceTree (entry : TraceEntry) : Tree :=
  .object [("time", .natural entry.time), ("processId", .ofOption entry.occupant)]

def jobTree (job : Job) : Tree :=
  .object [
    ("id", .natural job.id),
    ("arrivalTime", .natural job.arrival),
    ("serviceDuration", .natural job.service),
    ("priority", .natural job.priority),
    ("effectivePriority", .natural job.effectivePriority),
    ("remainingTime", .natural job.remaining),
    ("firstStartTime", .ofOption job.firstStart),
    ("completionTime", .ofOption job.completion),
    ("turnaroundTime", .ofOption job.turnaround),
    ("waitingTime", .ofOption job.waiting),
    ("responseTime", .ofOption job.response)]

def scheduleTree (schedule : Schedule) : Tree :=
  .object [
    ("policy", .word schedule.policy.name),
    ("metrics", metricsTree schedule.metrics),
    ("trace", .array (schedule.trace.toList.map traceTree)),
    ("processes", .array (schedule.jobs.map jobTree))]

end CpuScheduling.CommandLine
