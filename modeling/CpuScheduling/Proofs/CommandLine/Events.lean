import CpuScheduling.CommandLine.Session
import CpuScheduling.Proofs.Simulation.History
import CpuScheduling.Proofs.Simulation.SplitRun

/-!
A session that tells the events of a run.  It steps on its own, under a limit that it checks on its
own, and only then runs what is left.  It prints the history of the run and ends as the run does.
-/

namespace CpuScheduling.CommandLine

variable {workload : List Spec} {config : Config} {policy : Policy}

/-- Telling the events of a run on the way does not change how it ends. -/
theorem narrateFor_run (fuel : Nat) (simulation : Simulation) (lines : Array String) :
    ((narrateFor fuel simulation lines).2 >>= Simulation.run) =
      Simulation.runFor fuel simulation := by
  induction fuel generalizing simulation lines with
  | zero =>
      unfold narrateFor Simulation.runFor
      split
      next finished => exact Simulation.run_of_allFinished finished
      next => split <;> rfl
  | succ fuel inductionHypothesis =>
      unfold narrateFor Simulation.runFor
      split
      next finished => exact Simulation.run_of_allFinished finished
      next =>
        split
        next => rfl
        next =>
          cases simulation.step with
          | ok stepped => exact inductionHypothesis _ _
          | error fault => rfl

def historyLines (history : List (Nat × Event)) : List String :=
  history.map fun (time, event) => eventLine time event

theorem toList_foldl_push (time : Nat) (events : List Event) (lines : Array String) :
    (events.foldl (fun lines event => lines.push (eventLine time event)) lines).toList =
      lines.toList ++ historyLines (stamped time events) := by
  induction events generalizing lines with
  | nil => simp [historyLines]
  | cons event rest inductionHypothesis =>
      rw [List.foldl_cons, inductionHypothesis]
      simp [historyLines, stamped]

theorem historyLines_append (first second : List (Nat × Event)) :
    historyLines (first ++ second) = historyLines first ++ historyLines second :=
  List.map_append

theorem narrateFor_lines (fuel : Nat) (simulation : Simulation) (lines : Array String) :
    (narrateFor fuel simulation lines).1.toList =
      lines.toList ++ historyLines (Simulation.historyFor fuel simulation) := by
  have nothing : lines.toList = lines.toList ++ historyLines [] := (List.append_nil _).symm
  induction fuel generalizing simulation lines with
  | zero =>
      unfold narrateFor
      split
      next => exact nothing
      next => split <;> exact nothing
  | succ fuel inductionHypothesis =>
      unfold narrateFor Simulation.historyFor
      split
      next finished => simpa [finished] using nothing
      next unfinished =>
        split
        next atLimit => simpa [atLimit] using nothing
        next room =>
          rw [if_neg (by simp [unfinished, room])]
          cases steps : simulation.step with
          | error fault => exact nothing
          | ok stepped =>
              rw [inductionHypothesis _ _ (List.append_nil _).symm, toList_foldl_push,
                List.append_assoc, ← historyLines_append]

/-- The output of a session with lines and the outcome that a run comes to behind them. -/
def told (lines : List String) : Except Failure Schedule → Checked Output
  | .ok schedule => .ok { out := joinLines (lines ++ table schedule) }
  | .error (.refused refusal) => .ok (.failed (joinLines lines) (.ofRefusal refusal))
  | .error (.broken fault) => .error fault

def eventLines (workload : List Spec) (config : Config) (policy : Policy) : List String :=
  match validate workload with
  | .ok () => historyLines (Simulation.history workload config policy)
  | .error _ => []

theorem showEvents_eq_told :
    showEvents workload config policy =
      told (eventLines workload config policy) (simulate workload config policy) := by
  unfold showEvents eventLines
  cases valid : validate workload with
  | error refusal =>
      rw [simulate_of_invalid valid]
      rfl
  | ok =>
      cases created : Simulation.ofWorkload workload config policy with
      | error refusal =>
          rw [simulate_of_refused valid created, Simulation.history, created]
          rfl
      | ok simulation =>
          have ends : (narrate simulation).2 >>= Simulation.run =
              simulate workload config policy := by
            rw [narrate, narrateFor_run]
            simp [simulate, valid, created, refusing, bind, Except.bind, Simulation.run]
          have lines : (narrate simulation).1.toList =
              historyLines (Simulation.history workload config policy) := by
            rw [narrate, narrateFor_lines, Simulation.history, created]
            rfl
          dsimp only [bind, Except.bind] at ends ⊢
          rw [ends, lines]
          rfl

/-- Steps before the limit on the way to the end of a run do not change what it comes to, and so a
session that tells the events of a run comes to what the run comes to without them. -/
theorem steps_agree_with_run (workload : List Spec) (config : Config) (policy : Policy) :
    (∀ count,
      (do
        let first ← refusing (Simulation.ofWorkload workload config policy)
        let later ← checking (first.stepsWithin count)
        later.run) =
      refusing (Simulation.ofWorkload workload config policy) >>= Simulation.run) ∧
      showEvents workload config policy =
        told (eventLines workload config policy) (simulate workload config policy) := by
  refine ⟨fun count => ?_, showEvents_eq_told⟩
  cases created : Simulation.ofWorkload workload config policy with
  | error refusal => rfl
  | ok first =>
      have limit := Simulation.maxTicks_of_created created
      exact Simulation.run_after_stepsWithin count (limit ▸ config.maxTicks.toNat_lt)

end CpuScheduling.CommandLine
