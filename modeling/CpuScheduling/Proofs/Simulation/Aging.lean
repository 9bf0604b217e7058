import CpuScheduling.Proofs.Kernel.Ranks
import CpuScheduling.Proofs.Simulation.Slices

/-!
Aging bounds how long a job waits.  With every slice of another job a waiting job gains
priority.  After some turns it has outgrown all priorities that jobs are submitted with;
from then on a job that enters the queue waits behind it, and a job that already stands
before it has one more turn at most.
-/

namespace CpuScheduling

def topPriority (workload : List Spec) : Nat :=
  (workload.map (·.priority.toNat)).max?.getD 0

/-- The turns of others after which a waiting job has outgrown all submitted priorities. -/
def turnsToOutgrow (workload : List Spec) (step : Nat) (job : Job) : Nat :=
  (topPriority workload - job.priority) / step + 1

/-- The turns that others have at most while a job waits. -/
def turnLimit (workload : List Spec) (step : Nat) (job : Job) : Nat :=
  turnsToOutgrow workload step job + workload.length - 2

variable {workload : List Spec} {quantum step : Nat} {job : Job}

theorem priority_le_top {spec : Spec} (member : spec ∈ workload) :
    spec.priority.toNat ≤ topPriority workload := by
  have listed := List.mem_map_of_mem (f := fun spec : Spec => spec.priority.toNat) member
  cases greatest : (workload.map (·.priority.toNat)).max? with
  | none => simp [List.max?_eq_none_iff.mp greatest] at listed
  | some top =>
      rw [topPriority, greatest]
      exact (List.max?_eq_some_iff.mp greatest).2 _ listed

theorem Job.priority_le_top (submitted : job ∈ Job.ofWorkload workload) :
    job.priority ≤ topPriority workload := by
  obtain ⟨index, spec, isSpec, rfl⟩ := Job.mem_ofWorkload.mp submitted
  exact CpuScheduling.priority_le_top (List.mem_of_getElem? isSpec)

/-- After so many turns a waiting job stands above every submitted priority. -/
theorem top_lt_of_turns {turns : Nat} (grows : 0 < step)
    (enough : turnsToOutgrow workload step job ≤ turns) :
    topPriority workload < job.priority + step * turns := by
  have outgrown := Nat.lt_mul_div_succ (topPriority workload - job.priority) grows
  have more := Nat.mul_le_mul_left step enough
  rw [turnsToOutgrow] at more
  omega

namespace Machine

/-- The waiting jobs, other than one, that stand at a level or above it. -/
def challengers (machine : Machine) (id level : Nat) : Nat :=
  machine.ready.ids.countP fun other =>
    other ≠ id ∧ ∃ job ∈ machine.job? other, level ≤ job.effectivePriority

variable {machine next : Machine} {id level : Nat}

structure Joins (joining : Nat) (found : Job) (before after : Machine) : Prop where
  present : before.job? joining = some found
  offQueue : found.phase ≠ .ready
  absent : joining ∉ before.ready.ids
  now : after.now = before.now
  queued : after.ready.ids.Perm (joining :: before.ready.ids)
  jobs : ∀ other, after.job? other =
    if other = joining then some { found with phase := .ready } else before.job? other

structure Leaves (leaving : Nat) (found started : Job) (before after : Machine) : Prop where
  present : before.job? leaving = some found
  absent : leaving ∉ after.ready.ids
  now : after.now = before.now
  queued : before.ready.ids.Perm (leaving :: after.ready.ids)
  jobs : ∀ other, after.job? other = if other = leaving then some started else before.job? other

structure Ages (step : Nat) (before after : Machine) : Prop where
  now : after.now = before.now + 1
  queued : after.ready.ids.Perm before.ready.ids
  aged : ∀ other ∈ before.ready.ids, after.job? other = (before.job? other).map (·.aged step)

theorem joins_released {found : Job} {rank : Rank} {ready : ReadyQueue}
    (present : machine.job? id = some found) (offQueue : found.phase ≠ .ready)
    (absent : id ∉ machine.ready.ids) (entered : machine.ready.push id rank = .ok ready)
    (event : Event) :
    machine.Joins id found { machine.released id found event with ready := ready } where
  present := present
  offQueue := offQueue
  absent := absent
  now := rfl
  queued := ReadyQueue.ids_push_perm entered
  jobs := job?_put present _

theorem joins_woken {found : Job} {rank : Rank} {ready : ReadyQueue}
    (present : machine.job? id = some found) (isPending : found.phase = .pending)
    (absent : id ∉ machine.ready.ids) (entered : machine.ready.push id rank = .ok ready) :
    machine.Joins id found (Kernel.woken machine id found ready) where
  present := present
  offQueue := by simp [isPending]
  absent := absent
  now := rfl
  queued := ReadyQueue.ids_push_perm entered
  jobs := job?_put present _

theorem leaves_given {first : Job} (picked : machine.ready.peek = some id)
    (present : machine.job? id = some first) (absent : id ∉ machine.ready.tail.ids)
    (started : Job) : machine.Leaves id first started (machine.pop.2.given id started) where
  present := present
  absent := absent
  now := rfl
  queued := (ReadyQueue.cons_ids_tail_perm picked).symm
  jobs := job?_put present _

theorem Joins.others {joining other : Nat} {found : Job} (joins : Joins joining found machine next)
    (different : other ≠ joining) : next.job? other = machine.job? other :=
  (joins.jobs other).trans (if_neg different)

theorem Leaves.others {leaving other : Nat} {found started : Job}
    (leaves : Leaves leaving found started machine next) (different : other ≠ leaving) :
    next.job? other = machine.job? other :=
  (leaves.jobs other).trans (if_neg different)

theorem Joins.challengers {joining : Nat} {found : Job} (joins : Joins joining found machine next)
    (id : Nat) (low : found.effectivePriority < level) :
    next.challengers id level = machine.challengers id level := by
  have present := (joins.jobs joining).trans (if_pos rfl)
  have notHigh : ¬level ≤ found.effectivePriority := Nat.not_le_of_lt low
  rw [Machine.challengers, joins.queued.countP_eq, List.countP_cons]
  simp only [Option.mem_def, present, Option.some.injEq, exists_eq_left', notHigh, and_false,
    decide_false, Bool.false_eq_true, ↓reduceIte, Nat.add_zero]
  refine List.countP_congr fun other waits => ?_
  have different : other ≠ joining := fun same => joins.absent (same ▸ waits)
  simp only [joins.others different, Option.mem_def]

theorem Leaves.challengers {leaving : Nat} {found started : Job}
    (leaves : Leaves leaving found started machine next) (different : leaving ≠ id)
    (high : level ≤ found.effectivePriority) :
    next.challengers id level + 1 = machine.challengers id level := by
  have counted : leaving ≠ id ∧ ∃ job ∈ machine.job? leaving, level ≤ job.effectivePriority :=
    ⟨different, found, leaves.present, high⟩
  have whole : machine.challengers id level = next.ready.ids.countP (fun other =>
      other ≠ id ∧ ∃ job ∈ machine.job? other, level ≤ job.effectivePriority) + 1 := by
    rw [Machine.challengers, leaves.queued.countP_eq, List.countP_cons,
      if_pos (decide_eq_true counted)]
  rw [whole, Machine.challengers]
  congr 1
  refine List.countP_congr fun other waits => ?_
  have stays : other ≠ leaving := fun same => leaves.absent (same ▸ waits)
  simp only [leaves.others stays, Option.mem_def]

/-- Where all gain the same, nobody rises to the level who has not stood at it before. -/
theorem Ages.challengers_le (ages : Ages step machine next) (id level : Nat) :
    next.challengers id (level + step) ≤ machine.challengers id level := by
  rw [Machine.challengers, ages.queued.countP_eq]
  refine List.countP_mono_left fun other waits counted => ?_
  simp only [decide_eq_true_eq, Option.mem_def] at counted ⊢
  obtain ⟨different, rival, present, high⟩ := counted
  rw [ages.aged other waits, Option.map_eq_some_iff] at present
  obtain ⟨before, isBefore, rfl⟩ := present
  refine ⟨different, before, isBefore, ?_⟩
  simp only [Job.aged] at high
  omega

theorem challengers_lt (waits : id ∈ machine.ready.ids) (level : Nat) :
    machine.challengers id level < machine.ready.ids.length := by
  refine Nat.lt_of_le_of_ne List.countP_le_length fun all => ?_
  have counted := List.countP_eq_length.mp all id waits
  simp at counted

/-- The turns that others may still take before a job that has waited for some: once it
has outgrown the priorities of those that enter, one for each that stands before it. -/
def turnsAhead (workload : List Spec) (step : Nat) (machine : Machine) (job : Job)
    (turns : Nat) : Nat :=
  if turnsToOutgrow workload step job ≤ turns then
    machine.challengers job.id (job.priority + step * turns)
  else 0

end Machine

/-- A period of waiting that few turns of others fall into and that they fill. -/
structure Bounded (workload : List Spec) (quantum step : Nat) (ended : List Slice) (job : Job)
    (period : Nat × Nat) : Prop where
  ordered : period.1 ≤ period.2
  rivals_le : rivals ended job.id period ≤ turnLimit workload step job
  lasts : period.2 - period.1 ≤ turnLimit workload step job * quantum

theorem Bounded.concat {ended : List Slice} {slice : Slice} {period : Nat × Nat}
    (bounded : Bounded workload quantum step ended job period)
    (apart : slice.job = job.id ∨ period.2 ≤ slice.start) :
    Bounded workload quantum step (ended ++ [slice]) job period :=
  ⟨bounded.ordered, (rivals_concat apart).trans_le bounded.rivals_le, bounded.lasts⟩

/-- A job that waits gains with every turn of another, and few turns remain. -/
structure Waits (workload : List Spec) (quantum step : Nat) (slicing : Slicing)
    (machine : Machine) (job : Job) : Prop where
  raised : ∀ found, machine.job? job.id = some found →
    found.effectivePriority = job.priority + step * turns slicing.ended job
  few : turns slicing.ended job + slicing.inProgress +
    machine.turnsAhead workload step job (turns slicing.ended job) ≤ turnLimit workload step job
  since_le : waitingSince slicing.ended job ≤ machine.now
  elapsed : machine.now ≤ waitingSince slicing.ended job +
    (turns slicing.ended job * quantum + slicing.inProgress * machine.cpu.sliceUsed)

namespace Waits

variable {slicing : Slicing} {machine next : Machine}

theorem enter (since : waitingSince slicing.ended job = next.now)
    (ended : ∀ slice ∈ slicing.ended, slice.stop ≤ next.now)
    (raised : ∀ found, next.job? job.id = some found → found.effectivePriority = job.priority)
    (several : slicing.inProgress + 1 ≤ workload.length) :
    Waits workload quantum step slicing next job := by
  have noTurn : turns slicing.ended job = 0 :=
    turns_eq_zero fun slice member => since ▸ ended slice member
  refine ⟨?_, ?_, Nat.le_of_eq since, ?_⟩
  · simpa [noTurn] using raised
  · have growing : ¬turnsToOutgrow workload step job ≤ 0 := by simp [turnsToOutgrow]
    rw [noTurn, Machine.turnsAhead, if_neg growing, turnLimit]
    omega
  · omega

theorem join {joining : Nat} {found : Job} (waits : Waits workload quantum step slicing machine job)
    (grows : 0 < step) (joins : machine.Joins joining found next)
    (low : found.effectivePriority ≤ topPriority workload) (different : job.id ≠ joining)
    (sameSlice : slicing.inProgress * next.cpu.sliceUsed =
      slicing.inProgress * machine.cpu.sliceUsed) :
    Waits workload quantum step slicing next job := by
  refine ⟨?_, ?_, joins.now ▸ waits.since_le, ?_⟩
  · intro held isHeld
    exact waits.raised held ((joins.others different).symm.trans isHeld)
  · have noMore : next.turnsAhead workload step job (turns slicing.ended job) =
        machine.turnsAhead workload step job (turns slicing.ended job) := by
      unfold Machine.turnsAhead
      split
      next outgrown =>
        exact joins.challengers job.id (Nat.lt_of_le_of_lt low (top_lt_of_turns grows outgrown))
      next => rfl
    rw [noMore]
    exact waits.few
  · rw [joins.now, sameSlice]
    exact waits.elapsed

theorem overtaken {leaving : Nat} {first started found : Job}
    (waits : Waits workload quantum step slicing machine job) (idle : slicing.going = none)
    (leaves : machine.Leaves leaving first started next)
    (isFound : machine.job? job.id = some found)
    (front : found.effectivePriority ≤ first.effectivePriority) (different : leaving ≠ job.id)
    (several : 2 ≤ workload.length) (start : Nat) :
    Waits workload quantum step { slicing with going := some (leaving, start) } next job := by
  have raised := waits.raised found isFound
  have few := waits.few
  have elapsed := waits.elapsed
  have sameNow := leaves.now
  have resting : slicing.inProgress = 0 := Slicing.inProgress_of_idle idle
  rw [resting] at few elapsed
  refine ⟨?_, ?_, sameNow ▸ waits.since_le, by dsimp only; omega⟩
  · intro held isHeld
    exact waits.raised held ((leaves.others (Ne.symm different)).symm.trans isHeld)
  · simp only [Slicing.inProgress, Option.isSome_some, ↓reduceIte, Machine.turnsAhead] at few ⊢
    split at few
    next outgrown =>
      have oneLess := leaves.challengers different (raised ▸ front)
      rw [if_pos outgrown]
      omega
    next growing =>
      rw [if_neg growing, turnLimit]
      omega

theorem goOn {holder : Nat} (waits : Waits workload quantum step slicing machine job)
    (going : slicing.inProgress = 1) (later : next.now = machine.now + 1)
    (used : next.cpu.sliceUsed = machine.cpu.sliceUsed + 1)
    (queued : next.ready = machine.ready)
    (others : ∀ other, other ≠ holder → next.job? other = machine.job? other)
    (absent : holder ∉ machine.ready.ids) (different : job.id ≠ holder) :
    Waits workload quantum step slicing next job := by
  have since := waits.since_le
  have elapsed := waits.elapsed
  rw [going] at elapsed
  refine ⟨?_, ?_, by omega, by rw [going]; omega⟩
  · intro held isHeld
    exact waits.raised held ((others job.id different).symm.trans isHeld)
  · have sameRivals : next.challengers job.id = machine.challengers job.id := by
      funext level
      rw [Machine.challengers, queued]
      refine List.countP_congr fun other isQueued => ?_
      have elsewhere : other ≠ holder := fun same => absent (same ▸ isQueued)
      simp only [others other elsewhere, Option.mem_def]
    rw [Machine.turnsAhead, sameRivals]
    exact waits.few

theorem gain {holder start : Nat} (waits : Waits workload quantum step slicing machine job)
    (unsaturated : job.priority + step * turnLimit workload step job ≤ prioritySize - 1)
    (going : slicing.inProgress = 1) (used : machine.cpu.sliceUsed + 1 ≤ quantum)
    (ages : machine.Ages step next) (waiting : job.id ∈ machine.ready.ids)
    (different : holder ≠ job.id) (room : machine.ready.ids.length + 1 ≤ workload.length) :
    Waits workload quantum step { ended := slicing.ended ++ [⟨holder, start, next.now⟩] } next
      job := by
  have since := waits.since_le
  have few := waits.few
  have elapsed := waits.elapsed
  have later := ages.now
  rw [going] at few elapsed
  have sameSince : waitingSince (slicing.ended ++ [⟨holder, start, next.now⟩]) job =
      waitingSince slicing.ended job := waitingSince_concat_of_ne different
  have oneMore : turns (slicing.ended ++ [⟨holder, start, next.now⟩]) job =
      turns slicing.ended job + 1 :=
    turns_concat_of_ne different (show waitingSince slicing.ended job < next.now by omega)
  have nextLevel : job.priority + step * (turns slicing.ended job + 1) =
      job.priority + step * turns slicing.ended job + step := by
    rw [Nat.mul_succ, Nat.add_assoc]
  have inWord : job.priority + step * (turns slicing.ended job + 1) ≤ prioritySize - 1 := by
    have fewTurns : turns slicing.ended job + 1 ≤ turnLimit workload step job := by omega
    have gained := Nat.mul_le_mul_left step fewTurns
    omega
  refine ⟨?_, ?_, ?_, ?_⟩
  · intro held isHeld
    rw [ages.aged job.id waiting, Option.map_eq_some_iff] at isHeld
    obtain ⟨before, isBefore, rfl⟩ := isHeld
    have raised := waits.raised before isBefore
    simp only [oneMore, Job.aged]
    omega
  · simp only [oneMore, Slicing.inProgress, Option.isSome_none, Bool.false_eq_true, ↓reduceIte,
      Machine.turnsAhead, nextLevel] at few ⊢
    split
    next outgrown =>
      by_cases before : turnsToOutgrow workload step job ≤ turns slicing.ended job
      · rw [if_pos before] at few
        have noMore := ages.challengers_le job.id
          (job.priority + step * turns slicing.ended job)
        omega
      · have isQueued := ages.queued.mem_iff.mpr waiting
        have fewer := Machine.challengers_lt isQueued
          (job.priority + step * turns slicing.ended job + step)
        have length := ages.queued.length_eq
        simp only [turnLimit] at *
        omega
    next growing => omega
  · simp only [sameSince]
    omega
  · simp only [oneMore, sameSince, Slicing.inProgress, Option.isSome_none, Bool.false_eq_true,
      ↓reduceIte, Nat.succ_mul]
    omega

/-- The priority of a job that waits is not cut off. -/
theorem le_word {found : Job} (waits : Waits workload quantum step slicing machine job)
    (unsaturated : job.priority + step * turnLimit workload step job ≤ prioritySize - 1)
    (isFound : machine.job? job.id = some found) :
    found.effectivePriority ≤ prioritySize - 1 := by
  have raised := waits.raised found isFound
  have few := waits.few
  have fewTurns : turns slicing.ended job ≤ turnLimit workload step job := by omega
  have gained := Nat.mul_le_mul_left step fewTurns
  omega

theorem bounded (waits : Waits workload quantum step slicing machine job)
    (idle : slicing.going = none) :
    Bounded workload quantum step slicing.ended job
      (waitingSince slicing.ended job, machine.now) := by
  have few := waits.few
  have elapsed := waits.elapsed
  rw [Slicing.inProgress_of_idle idle] at elapsed
  have fewTurns : turns slicing.ended job ≤ turnLimit workload step job := by omega
  have time := Nat.mul_le_mul_right quantum fewTurns
  exact ⟨waits.since_le, (rivals_le_turns slicing.ended job machine.now).trans fewTurns,
    by dsimp only; omega⟩

end Waits

end CpuScheduling
