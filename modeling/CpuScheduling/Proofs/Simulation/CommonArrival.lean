import CpuScheduling.Proofs.Simulation.SameOutcome

/-!
Jobs that all arrive at one time.  The holder of the CPU stands before all that wait, and
work only moves it further ahead.  Where nobody comes later, a policy that preempts has no
occasion to do so.
-/

namespace CpuScheduling

namespace Lineup

variable {scheduler plain : Scheduler} {come : Nat → List Task}

theorem before_eq_empty (once : ∀ time, come time ≠ [] → ∀ earlier < time, come earlier = [])
    {time : Nat} (comes : come time ≠ []) : before scheduler come time = {} := by
  have untilThen : before scheduler come (0 + time) = {} :=
    before_add_of_empty rfl fun earlier _ early => once time comes earlier (by omega)
  rwa [Nat.zero_add] at untilThen

/-- Where all tasks come with one tick, nobody is disturbed by others that come. -/
theorem undisturbed_of_once (ranked : scheduler.isRanked = true) (steady : scheduler.isSteady = true)
    (agree : ∀ first second, scheduler.precedes first second = plain.precedes first second)
    (new : ∀ time, ∀ task ∈ come time, task.Unaged)
    (once : ∀ time, come time ≠ [] → ∀ earlier < time, come earlier = []) (time : Nat) :
    (before scheduler come time).Undisturbed scheduler plain (come time) := by
  have behind (time : Nat) (led : (before scheduler come time).Led scheduler) :
      ((come time).foldl (join scheduler) (before scheduler come time)).Led scheduler := by
    by_cases comes : come time = []
    · rwa [comes, List.foldl_nil]
    · rw [before_eq_empty once comes]
      intro tenure isHolder
      rw [holder_joinAll] at isHolder
      cases isHolder
  have led := led_before ranked steady new behind time
  refine (behind time led).undisturbed (Every.before (Task.unaged_lasting steady) new time) ?_
  refine joinAll_congr (fun task _ other _ => agree task other) ?_
  exact List.pairwise_of_forall fun early late => agree late early

end Lineup

variable {workload : List Spec} {config : Config}

/-- Where all jobs arrive at one time, preemption changes nothing. -/
theorem simulate_common_arrival (valid : validate workload = .ok ())
    (together : ∀ first ∈ workload, ∀ second ∈ workload, first.arrival = second.arrival) :
    SameOutcome workload config .sjf .srtf ∧
      SameOutcome workload config .priority .preemptivePriority := by
  have once (time : Nat) (comes : tasksAt workload time ≠ []) :
      ∀ earlier < time, tasksAt workload earlier = [] := by
    obtain ⟨task, isTask⟩ := List.exists_mem_of_ne_nil _ comes
    obtain ⟨job, submitted, arrives, _⟩ := mem_tasksAt.mp isTask
    obtain ⟨_, spec, listed, rfl⟩ := Job.mem_ofWorkload.mp submitted
    refine fun earlier early => tasksAt_eq_nil_iff.mpr fun other otherSubmitted isEarly => ?_
    obtain ⟨_, otherSpec, otherListed, rfl⟩ := Job.mem_ofWorkload.mp otherSubmitted
    have same := together spec (List.mem_of_getElem? listed) otherSpec
      (List.mem_of_getElem? otherListed)
    have sameTime : spec.arrival.toNat = otherSpec.arrival.toNat := congrArg UInt64.toNat same
    have arrivesThen : spec.arrival.toNat = time := arrives
    have arrivesEarly : otherSpec.arrival.toNat = earlier := isEarly
    omega
  have unaged := unaged_tasksAt workload
  constructor
  · exact sameOutcome_of_undisturbed valid rfl rfl rfl rfl
      (Lineup.undisturbed_of_once rfl rfl (fun _ _ => rfl) unaged once)
  · exact sameOutcome_of_undisturbed valid rfl rfl rfl rfl
      (Lineup.undisturbed_of_once rfl rfl (fun _ _ => rfl) unaged once)

/-- Three jobs of different lengths and priorities run one after the other. -/
theorem simulate_common_arrival_three :
    SameOutcome [⟨2, 3, 4⟩, ⟨2, 1, 0⟩, ⟨2, 2, 9⟩] {} .sjf .srtf ∧
      SameOutcome [⟨2, 3, 4⟩, ⟨2, 1, 0⟩, ⟨2, 2, 9⟩] {} .priority .preemptivePriority ∧
      (simulate [⟨2, 3, 4⟩, ⟨2, 1, 0⟩, ⟨2, 2, 9⟩] {} .srtf).toOption.map Schedule.timeline =
        some [none, none, some 2, some 3, some 3, some 1, some 1, some 1] ∧
      (simulate [⟨2, 3, 4⟩, ⟨2, 1, 0⟩, ⟨2, 2, 9⟩] {} .preemptivePriority).toOption.map
          Schedule.timeline =
        some [none, none, some 3, some 3, some 1, some 1, some 1, some 2] := by
  have both : SameOutcome [⟨2, 3, 4⟩, ⟨2, 1, 0⟩, ⟨2, 2, 9⟩] {} .sjf .srtf ∧
      SameOutcome [⟨2, 3, 4⟩, ⟨2, 1, 0⟩, ⟨2, 2, 9⟩] {} .priority .preemptivePriority :=
    simulate_common_arrival (by decide) (by decide)
  exact ⟨both.1, both.2, by decide +kernel, by decide +kernel⟩

end CpuScheduling
