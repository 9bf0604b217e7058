import CpuScheduling.Proofs.Simulation.TickLimit

/-!
The messages with which runs are refused.  They tell the reason and fit in a line.
-/

namespace CpuScheduling

namespace Refusal

/-- What a run can be refused for, once its workload and its policy are understood. -/
def OfRun : Refusal → Prop
  | malformedWorkload _ | unsupportedPolicy _ => False
  | _ => True

theorem eq_of_repr {number other : Nat} (same : number.repr = other.repr) : number = other := by
  have digits : Nat.toDigits 10 number = Nat.toDigits 10 other := by
    simpa [Nat.repr_eq_ofList_toDigits] using congrArg String.toList same
  calc
    number = Nat.ofDigitChars 10 (Nat.toDigits 10 number) 0 := Nat.ofDigitChars_ten_toDigits.symm
    _ = Nat.ofDigitChars 10 (Nat.toDigits 10 other) 0 := by rw [digits]
    _ = other := Nat.ofDigitChars_ten_toDigits

/-- The letter by which the messages of runs tell their kinds apart. -/
def tellingLetter : Refusal → Char
  | emptyWorkload => ':'
  | noService _ => ' '
  | divergence _ => 'o'
  | _ => 'a'

theorem getElem?_message {refusal : Refusal} (ofRun : refusal.OfRun) :
    refusal.message.toList[16]? = some refusal.tellingLetter := by
  unfold message tellingLetter
  cases refusal with
  | malformedWorkload | unsupportedPolicy => exact ofRun.elim
  | _ => simp [String.toList_append, toString]

/-- Runs that are refused with the same message are refused for the same reason. -/
theorem eq_of_message {first second : Refusal} (isFirst : first.OfRun) (isSecond : second.OfRun)
    (same : first.message = second.message) : first = second := by
  have letters : first.tellingLetter = second.tellingLetter := by
    rw [← Option.some_inj, ← getElem?_message isFirst, ← getElem?_message isSecond, same]
  unfold message at same
  cases first with
  | malformedWorkload | unsupportedPolicy => exact isFirst.elim
  | noService index =>
      cases second with
      | malformedWorkload | unsupportedPolicy => exact isSecond.elim
      | noService other =>
          have numbers : (index + 1).repr = (other + 1).repr := by simpa using same
          simpa using eq_of_repr numbers
      | _ => simp [tellingLetter] at letters
  | divergence ticks =>
      cases second with
      | malformedWorkload | unsupportedPolicy => exact isSecond.elim
      | divergence other =>
          have numbers : ticks.repr = other.repr := by simpa using same
          rw [eq_of_repr numbers]
      | _ => simp [tellingLetter] at letters
  | _ =>
      cases second with
      | malformedWorkload | unsupportedPolicy => exact isSecond.elim
      | noService | divergence => simp [tellingLetter] at letters
      | _ => simp at same ⊢

theorem newline_notMem_toDigits (number : Nat) : '\n' ∉ Nat.toDigits 10 number :=
  fun member => absurd (Nat.isDigit_of_mem_toDigits (by decide) (by decide) member) (by decide)

theorem newline_notMem_message {refusal : Refusal} (ofRun : refusal.OfRun) :
    '\n' ∉ refusal.message.toList := by
  unfold message
  cases refusal with
  | malformedWorkload | unsupportedPolicy => exact ofRun.elim
  | _ => simp [String.toList_append, toString, newline_notMem_toDigits]

end Refusal

variable {workload : List Spec} {config : Config} {policy : Policy} {refusal : Refusal}

theorem ofRun_of_validate (invalid : validate workload = .error refusal) : refusal.OfRun := by
  unfold validate at invalid
  split at invalid
  next =>
    cases invalid
    trivial
  next =>
    split at invalid
    next =>
      cases invalid
      trivial
    next => cases invalid

theorem simulate_completes_or_refuses (workload : List Spec) (config : Config) (policy : Policy) :
    (∃ schedule, simulate workload config policy = .ok schedule) ∨
      ∃ refusal : Refusal, refusal.OfRun ∧
        simulate workload config policy = .error (.refused refusal) := by
  cases valid : validate workload with
  | error refusal => exact .inr ⟨refusal, ofRun_of_validate valid, simulate_of_invalid valid⟩
  | ok =>
      have itself : config.limited config.maxTicks = config := rfl
      rw [← itself]
      by_cases zero : config.maxTicks = 0
      · rw [zero]
        exact .inr ⟨.zeroMaxTicks, trivial, simulate_of_zero_limit valid⟩
      by_cases lacks : config.LacksQuantum policy
      · refine .inr ⟨_, ?_, simulate_of_lacksQuantum valid lacks zero⟩
        split <;> trivial
      · have ends := simulate_of_equipped valid lacks zero
        split at ends
        next => exact .inl ends
        next => exact .inr ⟨.divergence _, trivial, ends⟩

end CpuScheduling
