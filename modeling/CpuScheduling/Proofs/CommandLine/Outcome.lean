import CpuScheduling.Proofs.CommandLine.Events
import CpuScheduling.Proofs.CommandLine.Messages

/-!
What a session prints of the outcomes of its runs.
-/

namespace CpuScheduling.CommandLine

variable {workload : List Spec} {config : Config} {policy : Policy} {limit other : UInt64}
  {options : Options} {output : Checked Output}

/-- The output of a session whose run under a policy has an outcome; where events are wanted,
their lines come first. -/
def ShowsRun (options : Options) (policy : Policy) (output : Checked Output) :
    Except Failure Schedule → Prop
  | .ok schedule =>
      if options.events then ∃ lines, output = .ok { out := joinLines (lines ++ table schedule) }
      else output = .ok { out := showSchedule options schedule }
  | .error (.refused refusal) =>
      if options.events then
        ∃ lines, output = .ok (.failed (joinLines lines) (.ofRefusal refusal))
      else
        output = .ok (.failed "" (.behind (policy.name ++ " simulation failed") refusal))
  | .error (.broken fault) => output = .error fault

theorem shows_showOne (plain : options.events = false) :
    ShowsRun options policy (showOne options workload config policy)
      (simulate workload config policy) := by
  unfold showOne
  cases simulate workload config policy with
  | ok schedule => simp [ShowsRun, plain]
  | error failure => cases failure <;> simp [ShowsRun, plain]

theorem shows_showEvents (telling : options.events = true) :
    ShowsRun options policy (showEvents workload config policy)
      (simulate workload config policy) := by
  rw [showEvents_eq_told]
  cases simulate workload config policy with
  | ok schedule => simpa [ShowsRun, telling] using ⟨_, rfl⟩
  | error failure =>
      cases failure with
      | refused refusal => simpa [ShowsRun, telling] using ⟨_, rfl⟩
      | broken fault => rfl

theorem ShowsRun.status_of_ok {schedule : Schedule}
    (shows : ShowsRun options policy output (.ok schedule)) : output.map (·.status) = .ok 0 := by
  simp only [ShowsRun] at shows
  split at shows
  next =>
    obtain ⟨lines, rfl⟩ := shows
    rfl
  next =>
    rw [shows]
    rfl

theorem ShowsRun.status_of_refused {refusal : Refusal}
    (shows : ShowsRun options policy output (.error (.refused refusal))) :
    output.map (·.status) = .ok 1 := by
  simp only [ShowsRun] at shows
  split at shows
  next =>
    obtain ⟨lines, rfl⟩ := shows
    rfl
  next =>
    rw [shows]
    rfl

theorem ShowsRun.message_eq {refusal other : Refusal}
    (shows : ShowsRun options policy output (.error (.refused refusal)))
    (showsOther : ShowsRun options policy output (.error (.refused other))) :
    refusal.message = other.message := by
  unfold ShowsRun at shows showsOther
  cases telling : options.events with
  | true =>
      simp only [telling, if_true] at shows showsOther
      obtain ⟨lines, rfl⟩ := shows
      obtain ⟨otherLines, same⟩ := showsOther
      have told : joinLines lines = joinLines otherLines ∧ refusal.message = other.message := by
        simpa [Output.failed, Complaint.message, Complaint.ofRefusal] using same
      exact told.2
  | false =>
      simp only [telling] at shows showsOther
      have same := shows.symm.trans showsOther
      simpa [Output.failed, Complaint.message, Complaint.behind] using same

/-- An output tells the outcome of its run, if runs that differ in the limit on ticks alone are
the ones in question. -/
theorem ShowsRun.outcome_eq
    (shows : ShowsRun options policy output (simulate workload (config.limited limit) policy))
    (showsOther : ShowsRun options policy output
      (simulate workload (config.limited other) policy)) :
    simulate workload (config.limited limit) policy =
      simulate workload (config.limited other) policy := by
  rcases simulate_completes_or_refuses workload (config.limited limit) policy with
    ⟨schedule, ran⟩ | ⟨refusal, ofRun, refused⟩ <;>
  rcases simulate_completes_or_refuses workload (config.limited other) policy with
    ⟨otherSchedule, otherRan⟩ | ⟨otherRefusal, otherOfRun, otherRefused⟩
  · rw [ran, otherRan, schedule_eq_of_limited ran otherRan]
  · rw [ran] at shows
    rw [otherRefused] at showsOther
    cases shows.status_of_ok.symm.trans showsOther.status_of_refused
  · rw [refused] at shows
    rw [otherRan] at showsOther
    cases shows.status_of_refused.symm.trans showsOther.status_of_ok
  · rw [refused] at shows ⊢
    rw [otherRefused] at showsOther ⊢
    rw [Refusal.eq_of_message ofRun otherOfRun (shows.message_eq showsOther)]

section Comparisons

def showResults (options : Options) (results : List (Policy × Except Failure Schedule)) :
    Checked Output := do
  let (schedules, refusals) ← partitionResults results
  let out :=
    if options.json then (Json.Tree.array (schedules.map scheduleTree)).pretty ++ "\n"
    else joinLines (schedules.flatMap table)
  return { out := out, err := joinLines refusals }

theorem showAll_eq : showAll options workload config =
    showResults options (Policy.all.map fun policy => (policy, simulate workload config policy)) :=
  rfl

theorem joinLines_cons (line : String) (rest : List String) :
    joinLines (line :: rest) = line ++ "\n" ++ joinLines rest := by
  have onward (text : String) (lines : List String) :
      lines.foldl (fun text line => text ++ line ++ "\n") text = text ++ joinLines lines := by
    induction lines generalizing text with
    | nil => simp [joinLines]
    | cons line rest inductionHypothesis =>
        rw [joinLines, List.foldl_cons, List.foldl_cons, inductionHypothesis, inductionHypothesis]
        simp [String.append_assoc]
  rw [joinLines, List.foldl_cons, onward]
  simp

theorem exists_partition (workload : List Spec) (config : Config) (policies : List Policy) :
    ∃ schedules refusals,
      partitionResults (policies.map fun policy => (policy, simulate workload config policy)) =
          .ok (schedules, refusals) ∧
        ∀ line ∈ refusals, ∃ policy ∈ policies, ∃ rest, line = policy.name ++ rest := by
  induction policies with
  | nil => exact ⟨[], [], rfl, by simp⟩
  | cons policy rest inductionHypothesis =>
      obtain ⟨schedules, refusals, isPartition, named⟩ := inductionHypothesis
      have others : ∀ line ∈ refusals, ∃ other ∈ policy :: rest, ∃ text, line = other.name ++ text :=
        fun line member => by
          obtain ⟨other, isOther, text⟩ := named line member
          exact ⟨other, List.mem_cons_of_mem _ isOther, text⟩
      rcases simulate_completes_or_refuses workload config policy with
        ⟨schedule, ran⟩ | ⟨refusal, _, refused⟩
      · refine ⟨schedule :: schedules, refusals, ?_, others⟩
        simp [partitionResults, isPartition, ran, bind, Except.bind, pure, Except.pure]
      · refine ⟨schedules, (policy.name ++ ": " ++ refusal.message) :: refusals, ?_, ?_⟩
        · simp [partitionResults, isPartition, refused, bind, Except.bind, pure, Except.pure]
        · refine List.forall_mem_cons.mpr ⟨⟨policy, List.mem_cons_self, ?_⟩, others⟩
          exact ⟨": " ++ refusal.message, String.append_assoc⟩

theorem takeWhile_line {line rest : List Char} (single : '\n' ∉ line) :
    (line ++ '\n' :: rest).takeWhile (· ≠ '\n') = line := by
  have onward : ∀ letter ∈ line, decide (letter ≠ '\n') = true := fun letter member =>
    decide_eq_true (ne_of_mem_of_not_mem member single)
  rw [List.takeWhile_append_of_pos onward]
  simp

def firstRefusal : Except Failure Schedule → String
  | .error (.refused refusal) => "fcfs: " ++ refusal.message ++ "\n"
  | _ => ""

theorem exists_comparison (options : Options) (workload : List Spec) (config : Config) :
    ∃ others : String, others.toList.head? ≠ some 'f' ∧
      (showAll options workload config).map (·.err) =
        .ok (firstRefusal (simulate workload config .fcfs) ++ others) := by
  obtain ⟨schedules, refusals, isPartition, named⟩ :=
    exists_partition workload config Policy.all.tail
  have results : Policy.all.map (fun policy => (policy, simulate workload config policy)) =
      (.fcfs, simulate workload config .fcfs) ::
        Policy.all.tail.map fun policy => (policy, simulate workload config policy) := rfl
  refine ⟨joinLines refusals, ?_, ?_⟩
  · cases refusals with
    | nil => simp [joinLines]
    | cons line rest =>
        obtain ⟨policy, isOther, text, rfl⟩ := named line List.mem_cons_self
        rw [joinLines_cons]
        simp only [Policy.all, List.tail_cons, List.mem_cons, List.not_mem_nil, or_false] at isOther
        rcases isOther with rfl | rfl | rfl | rfl | rfl | rfl <;>
          simp [Policy.name, String.toList_append]
  · rw [showAll_eq, showResults, results]
    rcases simulate_completes_or_refuses workload config .fcfs with
      ⟨schedule, ran⟩ | ⟨refusal, _, refused⟩
    · simp only [partitionResults, isPartition, ran, bind, Except.bind, pure, Except.pure, Except.map,
        firstRefusal, String.empty_append]
    · simp only [partitionResults, isPartition, refused, bind, Except.bind, pure, Except.pure,
        Except.map, firstRefusal, joinLines_cons, Policy.name]
      rfl

/-- A comparison tells the outcome of its first policy, if runs that differ in the limit on ticks
alone are the ones in question. -/
theorem outcome_eq_of_showAll
    (same : showAll options workload (config.limited limit) =
      showAll options workload (config.limited other)) :
    simulate workload (config.limited limit) .fcfs =
      simulate workload (config.limited other) .fcfs := by
  obtain ⟨others, unlike, isError⟩ := exists_comparison options workload (config.limited limit)
  obtain ⟨further, furtherUnlike, isOtherError⟩ :=
    exists_comparison options workload (config.limited other)
  rw [same, isOtherError, Except.ok.injEq] at isError
  rcases simulate_completes_or_refuses workload (config.limited limit) .fcfs with
    ⟨schedule, ran⟩ | ⟨refusal, ofRun, refused⟩ <;>
  rcases simulate_completes_or_refuses workload (config.limited other) .fcfs with
    ⟨otherSchedule, otherRan⟩ | ⟨otherRefusal, otherOfRun, otherRefused⟩
  · rw [ran, otherRan, schedule_eq_of_limited ran otherRan]
  · simp only [ran, otherRefused, firstRefusal, String.empty_append] at isError
    simp [← isError, String.toList_append] at unlike
  · simp only [refused, otherRan, firstRefusal, String.empty_append] at isError
    simp [isError, String.toList_append] at furtherUnlike
  · have messages : otherRefusal.message.toList ++ '\n' :: further.toList =
        refusal.message.toList ++ '\n' :: others.toList := by
      simpa [refused, otherRefused, firstRefusal, String.toList_append] using
        congrArg String.toList isError
    have lines := congrArg (List.takeWhile (· ≠ '\n')) messages
    rw [takeWhile_line (Refusal.newline_notMem_message otherOfRun),
      takeWhile_line (Refusal.newline_notMem_message ofRun)] at lines
    rw [refused, otherRefused,
      Refusal.eq_of_message ofRun otherOfRun (String.toList_injective lines.symm)]

end Comparisons

end CpuScheduling.CommandLine
