import CpuScheduling.Proofs.Machine.HeldTicks
import CpuScheduling.Proofs.Machine.JobBooks
import CpuScheduling.Simulation

/-!
How long a workload keeps a CPU busy that never rests while a job waits.  Which job
it serves does not matter: the time at which the work has drained depends on
arrivals and services alone.
-/

namespace CpuScheduling

/-- The time at which jobs that arrive in the order of a list have been served. -/
def drainTime (jobs : List Job) : Nat :=
  jobs.foldl (fun free job => max free job.arrival + job.service) 0

def demand (jobs : List Job) : Nat :=
  (jobs.map (·.service)).sum

def arrivals (workload : List Spec) : List Job :=
  sortByInsertion Simulation.arrivesBefore (Job.ofWorkload workload)

/-- The time at which all jobs of a workload have been served. -/
def makespan (workload : List Spec) : Nat :=
  drainTime (arrivals workload)

/-- The jobs that have arrived by a time have been served by then. -/
def Drained (workload : List Spec) (time : Nat) : Prop :=
  drainTime ((arrivals workload).filter (·.arrival ≤ time)) ≤ time

instance (workload : List Spec) (time : Nat) : Decidable (Drained workload time) :=
  inferInstanceAs (Decidable (_ ≤ _))

@[simp]
theorem drainTime_nil : drainTime [] = 0 := rfl

@[simp]
theorem demand_nil : demand [] = 0 := rfl

@[simp]
theorem demand_append (first second : List Job) :
    demand (first ++ second) = demand first + demand second := by
  simp [demand]

theorem drainTime_concat (jobs : List Job) (job : Job) :
    drainTime (jobs ++ [job]) = max (drainTime jobs) job.arrival + job.service := by
  simp [drainTime]

theorem drainTime_le_append (first second : List Job) :
    drainTime first ≤ drainTime (first ++ second) := by
  induction second generalizing first with
  | nil => simp
  | cons job rest inductionHypothesis =>
      have later := inductionHypothesis (first ++ [job])
      rw [drainTime_concat, List.append_assoc, List.singleton_append] at later
      omega

theorem served_le_drainTime {jobs : List Job} {job : Job} (member : job ∈ jobs) :
    job.arrival + job.service ≤ drainTime jobs := by
  obtain ⟨early, late, rfl⟩ := List.append_of_mem member
  have later := drainTime_le_append (early ++ [job]) late
  rw [drainTime_concat, List.append_assoc, List.singleton_append] at later
  omega

theorem drainTime_concat_sub {jobs : List Job} {job : Job} :
    drainTime (jobs ++ [job]) - job.arrival = drainTime jobs - job.arrival + job.service := by
  rw [drainTime_concat]
  omega

theorem arrivesBefore_iff {first second : Job} :
    Simulation.arrivesBefore first second = true ↔
      first.arrival < second.arrival ∨ first.arrival = second.arrival ∧ first.id ≤ second.id := by
  simp only [Simulation.arrivesBefore, Bool.or_eq_true, Bool.and_eq_true, decide_eq_true_eq]

theorem arrivesBefore_total (first second : Job) :
    Simulation.arrivesBefore first second ∨ Simulation.arrivesBefore second first := by
  simp only [arrivesBefore_iff]
  omega

theorem arrivesBefore_trans (first second third : Job) :
    Simulation.arrivesBefore first second → Simulation.arrivesBefore second third →
      Simulation.arrivesBefore first third := by
  simp only [arrivesBefore_iff]
  omega

theorem arrival_le_of_arrivesBefore {first second : Job}
    (before : Simulation.arrivesBefore first second) : first.arrival ≤ second.arrival := by
  rcases arrivesBefore_iff.mp before with earlier | ⟨together, _⟩
  · exact Nat.le_of_lt earlier
  · exact Nat.le_of_eq together

theorem pairwise_arrivals (workload : List Spec) :
    (arrivals workload).Pairwise fun first second => first.arrival ≤ second.arrival :=
  (pairwise_sortByInsertion arrivesBefore_total arrivesBefore_trans _).imp
    arrival_le_of_arrivesBefore

theorem arrivals_perm (workload : List Spec) :
    (arrivals workload).Perm (Job.ofWorkload workload) :=
  sortByInsertion_perm _ _

theorem mem_arrivals {workload : List Spec} {job : Job} :
    job ∈ arrivals workload ↔ job ∈ Job.ofWorkload workload :=
  mem_sortByInsertion

theorem Job.eq_of_id {workload : List Spec} {first second : Job}
    (isFirst : first ∈ ofWorkload workload) (isSecond : second ∈ ofWorkload workload)
    (same : first.id = second.id) : first = second := by
  have nodup : ((ofWorkload workload).map (·.id)).Nodup := by
    rw [map_id_ofWorkload]
    exact List.nodup_range'
  exact List.inj_on_of_nodup_map nodup isFirst isSecond same

theorem filter_arrivals (workload : List Spec) (time : Nat) :
    (arrivals workload).filter (·.arrival = time) =
      (Job.ofWorkload workload).filter (·.arrival = time) := by
  have submitted : (Job.ofWorkload workload).Pairwise fun first second => first.id ≤ second.id := by
    refine List.pairwise_map.mp ?_
    rw [Job.map_id_ofWorkload]
    exact List.pairwise_le_range'
  have sorted := (pairwise_sortByInsertion arrivesBefore_total arrivesBefore_trans
    (Job.ofWorkload workload)).filter (·.arrival = time)
  refine List.Perm.eq_of_pairwise ?_ (sorted.imp_of_mem ?_) (submitted.filter _)
    ((arrivals_perm workload).filter _)
  · intro first second isFirst isSecond early late
    exact Job.eq_of_id (mem_arrivals.mp (List.mem_of_mem_filter isFirst))
      (List.mem_of_mem_filter isSecond) (Nat.le_antisymm early late)
  · intro first second isFirst isSecond before
    have now := (List.mem_filter.mp isFirst).2
    have alsoNow := (List.mem_filter.mp isSecond).2
    simp only [decide_eq_true_eq] at now alsoNow
    rw [arrivesBefore_iff] at before
    omega

theorem map_id_arrivals (workload : List Spec) :
    (arrivals workload).map (·.id) = Simulation.arrivalOrder (Job.ofWorkload workload) := rfl

/-- Where the early jobs have arrived by a time and the late ones have not, the time
drains the early ones. -/
theorem drained_iff {workload : List Spec} {early late : List Job} {time : Nat}
    (split : early ++ late = arrivals workload) (come : ∀ job ∈ early, job.arrival ≤ time)
    (due : ∀ job ∈ late, time < job.arrival) : Drained workload time ↔ drainTime early ≤ time := by
  have earlyOnes : early.filter (·.arrival ≤ time) = early := by
    apply List.filter_eq_self.mpr
    intro job member
    simpa using come job member
  have lateOnes : late.filter (·.arrival ≤ time) = [] := by
    apply List.filter_eq_nil_iff.mpr
    intro job member
    simpa using due job member
  rw [Drained, ← split, List.filter_append, earlyOnes, lateOnes, List.append_nil]

end CpuScheduling
