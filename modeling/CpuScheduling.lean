import CpuScheduling.CommandLine.Session
import CpuScheduling.Main
import CpuScheduling.Proofs.Machine.HeldTicks
import CpuScheduling.Proofs.Machine.JobBooks
import CpuScheduling.Proofs.Machine.Order
import CpuScheduling.Proofs.Machine.Operations
import CpuScheduling.Proofs.Machine.Work
import CpuScheduling.Proofs.Machine.Effects
import CpuScheduling.Proofs.Machine.Audit
import CpuScheduling.Proofs.Scheduler.Order
import CpuScheduling.Proofs.Scheduler.Effects
import CpuScheduling.Proofs.Kernel.Order
import CpuScheduling.Proofs.Kernel.Calls
import CpuScheduling.Proofs.Kernel.Effects
import CpuScheduling.Proofs.Kernel.IdleWait
import CpuScheduling.Proofs.Kernel.Ranks
import CpuScheduling.Proofs.Lineup.Basic
import CpuScheduling.Proofs.Lineup.Machine
import CpuScheduling.Proofs.Simulation.Demand
import CpuScheduling.Proofs.Simulation.Feed
import CpuScheduling.Proofs.Simulation.Order
import CpuScheduling.Proofs.Simulation.Effects
import CpuScheduling.Proofs.Simulation.Run
import CpuScheduling.Proofs.Simulation.Outcome
import CpuScheduling.Proofs.Simulation.Accounts
import CpuScheduling.Proofs.Simulation.TickByTick
import CpuScheduling.Proofs.Simulation.History
import CpuScheduling.Proofs.Simulation.WorkConservation
import CpuScheduling.Proofs.Simulation.ShortestFirst
import CpuScheduling.Proofs.Simulation.Optimality
import CpuScheduling.Proofs.Simulation.Slices
import CpuScheduling.Proofs.Simulation.SlicedTrace
import CpuScheduling.Proofs.Simulation.Aging
import CpuScheduling.Proofs.Simulation.SliceTracking
import CpuScheduling.Proofs.Simulation.FairWaiting
import CpuScheduling.Proofs.Simulation.BoundedWaiting
import CpuScheduling.Proofs.Lineup.Run
import CpuScheduling.Proofs.Simulation.Switches
import CpuScheduling.Proofs.Simulation.FinalBooks
import CpuScheduling.Proofs.Simulation.Anticipation
import CpuScheduling.Proofs.Lineup.Conversion
import CpuScheduling.Proofs.Simulation.Renumbering
import CpuScheduling.Proofs.Lineup.Rescaling
import CpuScheduling.Proofs.Simulation.Rescaling
import CpuScheduling.Proofs.Lineup.Isolation
import CpuScheduling.Proofs.Simulation.Isolation
import CpuScheduling.Proofs.Lineup.Undisturbed
import CpuScheduling.Proofs.Simulation.SameOutcome
import CpuScheduling.Proofs.Simulation.LongQuantum
import CpuScheduling.Proofs.Simulation.CommonArrival
import CpuScheduling.Proofs.Simulation.UniformCriterion
import CpuScheduling.Proofs.Simulation.TickLimit
import CpuScheduling.Proofs.Json.Unicode
import CpuScheduling.Proofs.CommandLine.Messages
import CpuScheduling.Proofs.CommandLine.Outcome
import CpuScheduling.Proofs.CommandLine.Settings
import CpuScheduling.Proofs.CommandLine.Precedence
import CpuScheduling.Proofs.Lineup.Live
import CpuScheduling.Proofs.Simulation.ShortestDecision
import CpuScheduling.Proofs.Log.Basic
import CpuScheduling.Proofs.Log.Machine
import CpuScheduling.Proofs.Simulation.Steps
import CpuScheduling.Proofs.Simulation.Record
import CpuScheduling.Proofs.Json.Strings
import CpuScheduling.Proofs.Json.Doubles
import CpuScheduling.Proofs.Json.Numerals
import CpuScheduling.Proofs.Json.Elements
import CpuScheduling.Proofs.Json.Grammar
import CpuScheduling.Proofs.Workload.Document
import CpuScheduling.Proofs.Workload.Rendering
import CpuScheduling.Proofs.Simulation.PriorityDecision
import CpuScheduling.Proofs.Simulation.SliceLengths
import CpuScheduling.Proofs.Simulation.AgedPriority
import CpuScheduling.Proofs.Simulation.AgingDecision
import CpuScheduling.Proofs.Simulation.Entries
import CpuScheduling.Proofs.Simulation.RoundRobinWaiting
import CpuScheduling.Proofs.Simulation.Selection
import CpuScheduling.Proofs.Simulation.FirstCome
import CpuScheduling.Proofs.Simulation.RankedQueue
import CpuScheduling.Proofs.Simulation.WaitingOrder
import CpuScheduling.Proofs.Lineup.Overtaking
import CpuScheduling.Proofs.Simulation.Preemptions
import CpuScheduling.Proofs.Lineup.Reprioritizing
import CpuScheduling.Proofs.Simulation.Reprioritizing
import CpuScheduling.Proofs.Queue.RankOrder
import CpuScheduling.Proofs.Queue.Heap
import CpuScheduling.Proofs.Queue.Waitlist
import CpuScheduling.Proofs.Queue.Refinement
import CpuScheduling.Proofs.Workload.Generation
import CpuScheduling.Proofs.Simulation.SplitRun
import CpuScheduling.Proofs.CommandLine.Events
import CpuScheduling.Proofs.Machine.AnyOrder
import CpuScheduling.Proofs.Machine.WriteOnce
