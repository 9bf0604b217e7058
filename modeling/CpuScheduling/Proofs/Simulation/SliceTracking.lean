import CpuScheduling.Proofs.Simulation.Aging

/-!
The slices that have been seen and the machine agree: on the holder of the CPU and on
the times, on the jobs that have begun, and on the priorities.
-/

namespace CpuScheduling

structure Tracked (quantum : Nat) (slicing : Slicing) (machine : Machine) : Prop where
  going : slicing.going.map (·.1) =
    if machine.cpu.sliceExpired then none else machine.cpu.current
  begun : ∀ id start, slicing.going = some (id, start) → start ≤ machine.now
  ended : ∀ slice ∈ slicing.ended, slice.stop ≤ machine.now
  idle : machine.cpu.current = none → machine.cpu.sliceExpired = false
  used : machine.cpu.sliceExpired = false → machine.cpu.sliceUsed < quantum

structure Machine.Prioritized (ended : List Slice) (machine : Machine) : Prop where
  started : ∀ slice ∈ ended, machine.phase? slice.job ≠ some .pending
  base : ∀ id job, machine.job? id = some job → job.phase ≠ .ready →
    job.effectivePriority = job.priority

variable {workload : List Spec} {quantum step : Nat} {job : Job} {slicing : Slicing}
  {machine next : Machine}

structure Machine.Serves (holder : Nat) (served : Job) (before after : Machine) : Prop where
  ready : after.ready = before.ready
  jobs : ∀ other, after.job? other = if other = holder then some served else before.job? other
  started : served.phase ≠ .pending
  base : served.effectivePriority = served.priority

namespace Tracked

theorem of_same (tracked : Tracked quantum slicing machine) (cpu : next.cpu = machine.cpu)
    (later : machine.now ≤ next.now) : Tracked quantum slicing next where
  going := cpu ▸ tracked.going
  begun id start going := (tracked.begun id start going).trans later
  ended slice member := (tracked.ended slice member).trans later
  idle := cpu ▸ tracked.idle
  used := cpu ▸ tracked.used

theorem reset {last : Option Nat} (tracked : Tracked quantum slicing machine)
    (positive : 0 < quantum) (resting : slicing.going = none) (cpu : next.cpu = { last := last })
    (later : machine.now ≤ next.now) : Tracked quantum slicing next where
  going := by simp [resting, cpu]
  begun := by simp [resting]
  ended slice member := (tracked.ended slice member).trans later
  idle := by simp [cpu]
  used := by simpa [cpu] using positive

theorem start {leaving : Nat} (tracked : Tracked quantum slicing machine) (positive : 0 < quantum)
    (sameNow : next.now = machine.now)
    (cpu : next.cpu = { current := some leaving, last := some leaving }) :
    Tracked quantum { slicing with going := some (leaving, machine.now) } next where
  going := by simp [cpu]
  begun := by simp [sameNow]
  ended := sameNow ▸ tracked.ended
  idle := by simp [cpu]
  used := by simpa [cpu] using positive

theorem goOn (tracked : Tracked quantum slicing machine)
    (cpu : next.cpu = { machine.cpu with sliceUsed := machine.cpu.sliceUsed + 1 })
    (left : machine.cpu.sliceUsed + 1 < quantum) (later : machine.now ≤ next.now) :
    Tracked quantum slicing next where
  going := by simpa [cpu] using tracked.going
  begun id start going := (tracked.begun id start going).trans later
  ended slice member := (tracked.ended slice member).trans later
  idle := by simpa [cpu] using tracked.idle
  used := by simpa [cpu] using fun _ => left

theorem endSlice {holder start : Nat} (tracked : Tracked quantum slicing machine)
    (positive : 0 < quantum) (later : machine.now ≤ next.now)
    (cpu : next.cpu.current = some holder ∧ next.cpu.sliceExpired = true ∨
      next.cpu = { last := machine.cpu.last }) :
    Tracked quantum { ended := slicing.ended ++ [⟨holder, start, next.now⟩] } next := by
  have ended : ∀ slice ∈ slicing.ended ++ [⟨holder, start, next.now⟩], slice.stop ≤ next.now := by
    intro slice member
    rcases List.mem_append.mp member with before | last
    · exact (tracked.ended slice before).trans later
    · cases List.mem_singleton.mp last
      exact Nat.le_refl _
  rcases cpu with ⟨stays, expired⟩ | reset
  · exact ⟨by simp [expired], by simp, ended, by simp [stays], by simp [expired]⟩
  · exact ⟨by simp [reset], by simp, ended, by simp [reset], by simpa [reset] using positive⟩

end Tracked

namespace Machine.Prioritized

variable {ended : List Slice}

theorem change {waiting : List Nat} {id : Nat} {found : Job}
    (prioritized : machine.Prioritized ended)
    (ready : ∀ other ∈ waiting, machine.phase? other = some .ready)
    (jobs : ∀ other, next.job? other =
      if other ∈ waiting then (machine.job? other).map (·.aged step)
      else if other = id then some found else machine.job? other)
    (notPending : found.phase ≠ .pending)
    (base : found.phase ≠ .ready → found.effectivePriority = found.priority) :
    next.Prioritized ended := by
  have stillReady (other : Nat) (job : Job) (waits : other ∈ waiting)
      (present : (machine.job? other).map (·.aged step) = some job) : job.phase = .ready := by
    obtain ⟨before, isBefore, rfl⟩ := Option.map_eq_some_iff.mp present
    exact Option.some.inj ((phase?_of_job? isBefore).symm.trans (ready other waits))
  constructor
  · intro slice member isPending
    obtain ⟨job, present, phase⟩ := phase?_eq_some_iff.mp isPending
    rw [jobs] at present
    split at present
    next waits =>
      have isReady := stillReady slice.job job waits present
      cases isReady.symm.trans phase
    next =>
      split at present
      next =>
        cases present
        exact notPending phase
      next =>
        exact prioritized.started slice member (phase?_eq_some_iff.mpr ⟨job, present, phase⟩)
  · intro other job present notReady
    rw [jobs] at present
    split at present
    next waits => exact absurd (stillReady other job waits present) notReady
    next =>
      split at present
      next =>
        cases present
        exact base notReady
      next => exact prioritized.base other job present notReady

theorem put {id : Nat} {found : Job} (prioritized : machine.Prioritized ended)
    (jobs : ∀ other, next.job? other = if other = id then some found else machine.job? other)
    (notPending : found.phase ≠ .pending)
    (base : found.phase ≠ .ready → found.effectivePriority = found.priority) :
    next.Prioritized ended := by
  have nobodyAges : ∀ other, next.job? other =
      if other ∈ ([] : List Nat) then (machine.job? other).map (·.aged 0)
      else if other = id then some found else machine.job? other := by
    simpa using jobs
  exact prioritized.change (by simp) nobodyAges notPending base

theorem concat {slice : Slice} (prioritized : machine.Prioritized ended)
    (started : machine.phase? slice.job ≠ some .pending) :
    machine.Prioritized (ended ++ [slice]) := by
  refine ⟨fun other member => ?_, prioritized.base⟩
  rcases List.mem_append.mp member with before | last
  · exact prioritized.started other before
  · cases List.mem_singleton.mp last
    exact started

end Machine.Prioritized

namespace Machine.Booked

variable {clock : Nat} (booked : machine.Booked workload clock)

include booked

theorem mem_range {id : Nat} {job : Job} (present : machine.job? id = some job) :
    id ∈ List.range' 1 workload.length := by
  obtain ⟨named, submitted⟩ := booked.blank_eq present
  have listed : job.blank.id ∈ (Job.ofWorkload workload).map (·.id) :=
    List.mem_map_of_mem submitted
  rw [Job.map_id_ofWorkload] at listed
  exact named ▸ listed

theorem priority_le_top {id : Nat} {job : Job} (present : machine.job? id = some job) :
    job.priority ≤ topPriority workload := by
  have low : job.blank.priority ≤ topPriority workload :=
    Job.priority_le_top (booked.blank_eq present).2
  exact low

theorem priority_eq {job found : Job} (submitted : job ∈ Job.ofWorkload workload)
    (present : machine.job? job.id = some found) : found.priority = job.priority := by
  obtain ⟨same, isSame, isBlank⟩ := booked.exists_submitted submitted
  cases present.symm.trans isSame
  have same : found.blank.priority = job.priority := congrArg Job.priority isBlank
  exact same

end Machine.Booked

theorem Machine.Orderly.length_ids_lt {clock id : Nat} (orderly : machine.Orderly workload clock [])
    (current : machine.cpu.current = some id) :
    machine.ready.ids.length + 1 ≤ workload.length := by
  have nodup : (id :: machine.ready.ids).Nodup :=
    List.nodup_cons.mpr ⟨orderly.current_absent current, orderly.placement.nodup⟩
  have known : ∀ other ∈ id :: machine.ready.ids, other ∈ List.range' 1 workload.length := by
    intro other member
    have phase : ∃ phase, machine.phase? other = some phase := by
      rcases List.mem_cons.mp member with rfl | waits
      · exact ⟨_, (orderly.placement.current_iff other).mp current⟩
      · exact ⟨_, (orderly.placement.mem_iff other).mp waits⟩
    obtain ⟨_, isPhase⟩ := phase
    obtain ⟨_, present, _⟩ := Machine.phase?_eq_some_iff.mp isPhase
    exact orderly.toBooked.mem_range present
  simpa using (List.subperm_of_subset nodup known).length_le

end CpuScheduling
