import CpuScheduling.Proofs.Simulation.History

/-!
The slices of a run as its history tells them.  A job has a slice from its dispatch
until it completes, is preempted or has used up its quantum; between its arrival and
its slices it waits.
-/

namespace CpuScheduling

/-- A job had the CPU from `start` until `stop`. -/
structure Slice where
  job : Nat
  start : Nat
  stop : Nat
  deriving DecidableEq

/-- The slices that have ended, in the order of time, and the one that has not. -/
structure Slicing where
  ended : List Slice := []
  going : Option (Nat × Nat) := none
  deriving DecidableEq

namespace Slicing

def close (slicing : Slicing) (stop : Nat) : Slicing :=
  match slicing.going with
  | none => slicing
  | some (job, start) => { ended := slicing.ended ++ [⟨job, start, stop⟩] }

def latest (slicing : Slicing) (now : Nat) : Nat :=
  slicing.going.elim now (·.2)

def inProgress (slicing : Slicing) : Nat :=
  if slicing.going.isSome then 1 else 0

def after (slicing : Slicing) : Nat × Event → Slicing
  | (time, .dispatch job _ _) => { slicing with going := some (job, time) }
  | (time, .preempt _ _) => slicing.close time
  | (time, .sliceExpired _) => slicing.close time
  | (_, .complete _ time) => slicing.close time
  | (_, .arrival _) => slicing
  | (_, .cpuIdle _) => slicing

def ofHistory (history : List (Nat × Event)) : Slicing :=
  history.foldl after {}

theorem ofHistory_append (history later : List (Nat × Event)) :
    ofHistory (history ++ later) = later.foldl after (ofHistory history) :=
  List.foldl_append

theorem ofHistory_phases {history : List (Nat × Event)} {time : Nat}
    {events news expired dispatched ended : List Event}
    (whole : events ++ expired ++ dispatched ++ ended = events ++ news) :
    ofHistory (history ++ stamped time news) =
      (stamped time ended).foldl after ((stamped time dispatched).foldl after
        ((stamped time expired).foldl after (ofHistory history))) := by
  rw [List.append_assoc, List.append_assoc] at whole
  rw [← List.append_cancel_left whole, stamped_append, stamped_append, ofHistory_append,
    List.foldl_append, List.foldl_append]

theorem close_of_going {slicing : Slicing} {job start : Nat}
    (going : slicing.going = some (job, start)) (stop : Nat) :
    slicing.close stop = { ended := slicing.ended ++ [⟨job, start, stop⟩] } := by
  simp [close, going]

theorem inProgress_of_idle {slicing : Slicing} (idle : slicing.going = none) :
    slicing.inProgress = 0 := by
  simp [inProgress, idle]

theorem inProgress_of_going {slicing : Slicing} {job start : Nat}
    (going : slicing.going = some (job, start)) : slicing.inProgress = 1 := by
  simp [inProgress, going]

/-- The slices as they are: one that is used up has ended, although its end is told only
when its job is queued again. -/
def seen (slicing : Slicing) (machine : Machine) : Slicing :=
  if machine.cpu.sliceExpired then slicing.close machine.now else slicing

end Slicing

def slices (workload : List Spec) (config : Config) (policy : Policy) : List Slice :=
  (Slicing.ofHistory (Simulation.history workload config policy)).ended

/-- The times between a time and the slices of a job, from the end of one to the start
of the next. -/
def gaps (since : Nat) : List Slice → List (Nat × Nat)
  | [] => []
  | slice :: rest => (since, slice.start) :: gaps slice.stop rest

/-- The periods in which a job waits: from its arrival until its first slice, and from
the end of each slice until the next. -/
def waitingPeriods (slices : List Slice) (job : Job) : List (Nat × Nat) :=
  gaps job.arrival (slices.filter (·.job = job.id))

def waitingSince (slices : List Slice) (job : Job) : Nat :=
  (slices.filter (·.job = job.id)).foldl (fun _ slice => slice.stop) job.arrival

/-- The slices that others have in a period, those included in which it begins or ends. -/
def rivals (slices : List Slice) (id : Nat) (period : Nat × Nat) : Nat :=
  slices.countP fun slice => slice.job ≠ id ∧ slice.start < period.2 ∧ period.1 < slice.stop

/-- The slices of others that have ended since a job began to wait. -/
def turns (slices : List Slice) (job : Job) : Nat :=
  slices.countP fun slice => slice.job ≠ job.id ∧ waitingSince slices job < slice.stop

variable {slices : List Slice} {slice : Slice} {job : Job}

theorem gaps_concat (since : Nat) (own : List Slice) (slice : Slice) :
    gaps since (own ++ [slice]) =
      gaps since own ++ [(own.foldl (fun _ slice => slice.stop) since, slice.start)] := by
  induction own generalizing since with
  | nil => rfl
  | cons first rest inductionHypothesis => simp [gaps, inductionHypothesis]

theorem waitingPeriods_concat_self (own : slice.job = job.id) :
    waitingPeriods (slices ++ [slice]) job =
      waitingPeriods slices job ++ [(waitingSince slices job, slice.start)] := by
  simp [waitingPeriods, waitingSince, own, gaps_concat]

theorem waitingPeriods_concat_of_ne (other : slice.job ≠ job.id) :
    waitingPeriods (slices ++ [slice]) job = waitingPeriods slices job := by
  simp [waitingPeriods, other]

theorem waitingSince_concat_self (own : slice.job = job.id) :
    waitingSince (slices ++ [slice]) job = slice.stop := by
  simp [waitingSince, own]

theorem waitingSince_concat_of_ne (other : slice.job ≠ job.id) :
    waitingSince (slices ++ [slice]) job = waitingSince slices job := by
  simp [waitingSince, other]

theorem waitingSince_of_unstarted (unstarted : ∀ slice ∈ slices, slice.job ≠ job.id) :
    waitingSince slices job = job.arrival := by
  have none : slices.filter (·.job = job.id) = [] := by
    simpa [List.filter_eq_nil_iff] using unstarted
  simp [waitingSince, none]

theorem rivals_concat {id : Nat} {period : Nat × Nat}
    (apart : slice.job = id ∨ period.2 ≤ slice.start) :
    rivals (slices ++ [slice]) id period = rivals slices id period := by
  have notCounted : ¬(slice.job ≠ id ∧ slice.start < period.2 ∧ period.1 < slice.stop) := by
    rintro ⟨other, early, _⟩
    rcases apart with own | late
    · exact other own
    · omega
  rw [rivals, List.countP_append, List.countP_singleton, decide_eq_false notCounted]
  rfl

theorem turns_concat_of_ne (other : slice.job ≠ job.id)
    (later : waitingSince slices job < slice.stop) :
    turns (slices ++ [slice]) job = turns slices job + 1 := by
  simp [turns, waitingSince_concat_of_ne other, other, later]

theorem turns_eq_zero (ended : ∀ slice ∈ slices, slice.stop ≤ waitingSince slices job) :
    turns slices job = 0 := by
  refine List.countP_eq_zero.mpr fun slice member counted => ?_
  have before := ended slice member
  simp only [decide_eq_true_eq] at counted
  omega

theorem rivals_le_turns (slices : List Slice) (job : Job) (till : Nat) :
    rivals slices job.id (waitingSince slices job, till) ≤ turns slices job := by
  refine List.countP_mono_left fun slice _ counted => ?_
  simp only [decide_eq_true_eq] at counted ⊢
  exact ⟨counted.1, counted.2.2⟩

end CpuScheduling
