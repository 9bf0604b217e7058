/-!
Checked steps of the machine.  Every operation that could break the machine's
books either yields its next value or names the check that it broke.

Times, durations and counters are natural numbers; the words that hold them
have `2 ^ 64` values and priorities have `2 ^ 32`, so an operation that would
leave its word is a broken check too.
-/

namespace CpuScheduling

/-- The number of values of a time, a duration or a counter. -/
abbrev wordSize : Nat := UInt64.size

abbrev prioritySize : Nat := UInt32.size

/-- The check that an operation broke. -/
inductive Fault where
  | unknownJob (id : Nat)
  | admittedTwice (id : Nat)
  | alreadyQueued (id : Nat)
  | notReady (id : Nat)
  | cpuBusy
  | queuedWhileRunning (id : Nat)
  | startedBeforeArrival (id : Nat)
  | noWorkLeft (id : Nat)
  | notRunning (id : Nat)
  /-- A job needs at least its service duration between arrival and completion. -/
  | finishedTooEarly (id : Nat)
  /-- The waiting time fixed at dispatch differs from the one derived at completion. -/
  | waitingMismatch (id : Nat)
  | overflow
  /-- The trace has exactly one entry for each elapsed tick. -/
  | traceGap
  /-- Turnaround is waiting plus service. -/
  | timingMismatch (id : Nat)
  | finishedWithWork (id : Nat)
  | noJobs
  | unfinished
  /-- A step before the limit on ticks takes one at least. -/
  | stalled
  deriving DecidableEq

abbrev Checked := Except Fault

def ensure (condition : Prop) [Decidable condition] (fault : Fault) : Checked Unit :=
  if condition then .ok () else .error fault

@[simp]
theorem ensure_eq_ok_iff {condition : Prop} [Decidable condition] {fault : Fault}
    {done : Unit} : ensure condition fault = .ok done ↔ condition := by
  unfold ensure
  split <;> simp_all

@[simp]
theorem ensure_eq_error_iff {condition : Prop} [Decidable condition]
    {fault broken : Fault} :
    ensure condition fault = .error broken ↔ ¬condition ∧ fault = broken := by
  unfold ensure
  split <;> simp_all

theorem bind_eq_ok_iff {ε α β : Type} {first : Except ε α} {next : α → Except ε β}
    {result : β} :
    (first >>= next) = .ok result ↔ ∃ value, first = .ok value ∧ next value = .ok result := by
  cases first <;> simp [bind, Except.bind]

theorem map_eq_ok_iff {ε α β : Type} {first : Except ε α} {next : α → β} {result : β} :
    first.map next = .ok result ↔ ∃ value, first = .ok value ∧ next value = result := by
  cases first <;> simp [Except.map]

theorem mapError_eq_ok_iff {ε δ α : Type} {first : Except ε α} {renamed : ε → δ} {result : α} :
    first.mapError renamed = .ok result ↔ first = .ok result := by
  cases first with
  | error failure => exact ⟨nofun, nofun⟩
  | ok value =>
      change Except.ok value = .ok result ↔ _
      simp

theorem toOption_eq_some_iff {ε α : Type} {result : Except ε α} {value : α} :
    result.toOption = some value ↔ result = .ok value := by
  cases result <;> simp [Except.toOption]

theorem forM_eq_ok_iff {ε α : Type} {values : List α} {check : α → Except ε Unit} :
    values.forM check = .ok () ↔ ∀ value ∈ values, check value = .ok () := by
  induction values with
  | nil => simp [List.forM, pure, Except.pure]
  | cons value rest inductionHypothesis =>
      change (check value >>= fun _ => rest.forM check) = .ok () ↔ _
      rw [bind_eq_ok_iff, List.forall_mem_cons, inductionHypothesis]
      exact ⟨fun ⟨(), first, others⟩ => ⟨first, others⟩,
        fun ⟨first, others⟩ => ⟨(), first, others⟩⟩

def increment (counter : Nat) : Checked Nat := do
  ensure (counter + 1 < wordSize) .overflow
  return counter + 1

theorem increment_eq_ok_iff {counter next : Nat} :
    increment counter = .ok next ↔ counter + 1 < wordSize ∧ next = counter + 1 := by
  unfold increment ensure
  split
  next inWord => simp [inWord, bind, Except.bind, pure, Except.pure, eq_comm]
  next tooLarge => simp [tooLarge, bind, Except.bind]

end CpuScheduling
