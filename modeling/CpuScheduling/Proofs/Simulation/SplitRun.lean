import CpuScheduling.Proofs.Simulation.Effects

/-!
A run may begin with steps.  A step that succeeds moves the clock on, whatever the state it begins
in, so that the ticks up to the limit are fuel enough for the rest of a run, and where it is split
does not matter to its outcome.
-/

namespace CpuScheduling

theorem Kernel.now_of_wake {kernel next : Kernel} {id : Nat} (wakes : kernel.wake id = .ok next) :
    next.machine.now = kernel.machine.now := by
  obtain ⟨_, _, _, _, _, _, rfl⟩ := wake_ok wakes
  rfl

namespace Simulation

variable {simulation next : Simulation} {events : List Event} {fuel other : Nat}

/-- Before the limit, a step that succeeds takes a tick at least. -/
theorem later_of_step (unfinished : simulation.allFinished = false)
    (room : simulation.now < simulation.maxTicks) (limit : simulation.maxTicks < wordSize)
    (steps : simulation.step = .ok (events, next)) :
    simulation.now < next.now ∧ next.maxTicks = simulation.maxTicks := by
  rw [step, if_neg (Bool.eq_false_iff.mp unfinished)] at steps
  obtain ⟨⟨fed, awaited⟩, feeds, ticksOn⟩ := bind_eq_ok_iff.mp steps
  obtain ⟨⟨news, ticked⟩, ticks, waits⟩ := bind_eq_ok_iff.mp ticksOn
  obtain ⟨⟨idle, rested⟩, skips, isNext⟩ := bind_eq_ok_iff.mp waits
  cases isNext
  have fedNow : fed.machine.now = simulation.now :=
    wakeArrived_keeps (fun _ _ _ wakes held => (Kernel.now_of_wake wakes).trans held) feeds rfl
  have tickedNow := (Kernel.clock_of_tick ticks).1
  have waited : ticked.machine.now ≤ rested.machine.now := by
    rcases skipIdle_ok (Kernel.tick_collected ticks) skips with
      ⟨_, rfl⟩ | ⟨_, _, _, ticks, _, _, _, _, _, _, rfl⟩
    · exact Nat.le_refl _
    · exact Nat.le_add_right _ ticks
  refine ⟨?_, rfl⟩
  change simulation.now < rested.machine.now
  omega

/-- More fuel than there are ticks up to the limit makes no difference: a step takes a unit of fuel
and, of these ticks, at least one. -/
theorem runFor_eq_of_enough (limit : simulation.maxTicks < wordSize)
    (enough : simulation.maxTicks - simulation.now ≤ fuel)
    (otherEnough : simulation.maxTicks - simulation.now ≤ other) :
    runFor fuel simulation = runFor other simulation := by
  induction fuel generalizing simulation other with
  | zero =>
      have atLimit : simulation.maxTicks ≤ simulation.now := by omega
      unfold runFor
      simp only [if_pos atLimit]
  | succ fuel inductionHypothesis =>
      by_cases finished : simulation.allFinished = true
      · unfold runFor
        rw [if_pos finished, if_pos finished]
      by_cases atLimit : simulation.maxTicks ≤ simulation.now
      · unfold runFor
        rw [if_neg finished, if_neg finished, if_pos atLimit, if_pos atLimit]
      obtain ⟨further, rfl⟩ : ∃ further, other = further + 1 :=
        Nat.exists_eq_add_one.mpr (by omega)
      rw [runFor, runFor, if_neg finished, if_neg finished, if_neg atLimit, if_neg atLimit]
      cases steps : simulation.step with
      | error fault => rfl
      | ok stepped =>
          obtain ⟨later, sameLimit⟩ :=
            later_of_step (Bool.eq_false_iff.mpr finished) (by omega) limit steps
          exact inductionHypothesis (sameLimit ▸ limit) (by omega) (by omega)

theorem run_of_allFinished (finished : simulation.allFinished = true) :
    simulation.run = checking simulation.schedule := by
  unfold run runFor
  rw [if_pos finished]

theorem run_of_unfinished (unfinished : simulation.allFinished = false)
    (room : simulation.now < simulation.maxTicks) (limit : simulation.maxTicks < wordSize) :
    simulation.run = checking simulation.step >>= fun stepped => stepped.2.run := by
  obtain ⟨fuel, isFuel⟩ : ∃ fuel, simulation.maxTicks - simulation.now = fuel + 1 :=
    Nat.exists_eq_add_one.mpr (Nat.sub_pos_of_lt room)
  rw [run, isFuel, runFor, if_neg (Bool.eq_false_iff.mp unfinished), if_neg (Nat.not_le.mpr room)]
  cases steps : simulation.step with
  | error fault => rfl
  | ok stepped =>
      obtain ⟨later, sameLimit⟩ := later_of_step unfinished room limit steps
      exact runFor_eq_of_enough (sameLimit ▸ limit) (by omega) (Nat.le_refl _)

/-- So many steps at most, each only while jobs are unfinished before the limit. -/
def stepsWithin : Nat → Simulation → Checked Simulation
  | 0, simulation => .ok simulation
  | count + 1, simulation =>
      if simulation.allFinished || simulation.maxTicks ≤ simulation.now then .ok simulation
      else do
        let (_, next) ← simulation.step
        stepsWithin count next

/-- Steps on the way do not change how a run ends. -/
theorem run_after_stepsWithin (count : Nat) (limit : simulation.maxTicks < wordSize) :
    (checking (simulation.stepsWithin count) >>= run) = simulation.run := by
  induction count generalizing simulation with
  | zero => rfl
  | succ count inductionHypothesis =>
      by_cases ended : (simulation.allFinished || simulation.maxTicks ≤ simulation.now) = true
      · rw [stepsWithin, if_pos ended]
        rfl
      · rw [stepsWithin, if_neg ended]
        simp only [Bool.or_eq_true, decide_eq_true_eq, not_or, Bool.not_eq_true,
          Nat.not_le] at ended
        rw [run_of_unfinished ended.1 ended.2 limit]
        cases steps : simulation.step with
        | error fault => rfl
        | ok stepped =>
            have sameLimit := (later_of_step ended.1 ended.2 limit steps).2
            exact inductionHypothesis (sameLimit ▸ limit)

end Simulation

end CpuScheduling
