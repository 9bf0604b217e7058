/-!
The seven scheduling policies and their names.
-/

namespace CpuScheduling

inductive Policy where
  /-- First come, first served. -/
  | fcfs
  /-- Shortest job first. -/
  | sjf
  /-- Shortest remaining time first. -/
  | srtf
  /-- Highest priority first, run to completion. -/
  | priority
  /-- Highest priority first, decided anew at every tick. -/
  | preemptivePriority
  | roundRobin
  /-- Round robin over priorities that grow while a job waits. -/
  | agingRoundRobin
  deriving DecidableEq

namespace Policy

/-- Every policy, in the order in which comparisons list them. -/
def all : List Policy :=
  [fcfs, sjf, srtf, priority, preemptivePriority, roundRobin, agingRoundRobin]

def name : Policy → String
  | fcfs => "fcfs"
  | sjf => "sjf"
  | srtf => "srtf"
  | priority => "priority-np"
  | preemptivePriority => "priority-p"
  | roundRobin => "rr"
  | agingRoundRobin => "priority-rr"

def usesQuantum : Policy → Bool
  | roundRobin | agingRoundRobin => true
  | _ => false

/-- A name's letters as they are compared: case is ignored and an underscore
counts as a hyphen. -/
def canonicalName (text : String) : String :=
  text.map fun letter => if letter = '_' then '-' else letter.toLower

/-- The policy of a name, if it has one.  Names are ASCII, so only ASCII letters
can match in either case. -/
def ofName? (text : String) : Option Policy :=
  match canonicalName text with
  | "fcfs" | "fifo" => some fcfs
  | "sjf" => some sjf
  | "srtf" => some srtf
  | "priority-np" | "priority" => some priority
  | "priority-p" => some preemptivePriority
  | "rr" | "round-robin" => some roundRobin
  | "priority-rr" | "aging-rr" => some agingRoundRobin
  | _ => none

end Policy

end CpuScheduling
