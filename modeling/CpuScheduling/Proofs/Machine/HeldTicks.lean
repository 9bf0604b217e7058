import CpuScheduling.Machine
import Mathlib.Data.List.Nodup
import Mathlib.Algebra.BigOperators.Group.List.Lemmas
import Mathlib.Algebra.GroupWithZero.Nat

/-!
What a trace says about one job: the ticks in which it held the CPU.  The number
of busy ticks is the sum of these over all jobs that ever held it.
-/

namespace CpuScheduling

/-- The ticks in which a job held the CPU, in the order of time. -/
def heldTicks (record : Array TraceEntry) (id : Nat) : List Nat :=
  (record.toList.filter (·.occupant == some id)).map (·.time)

def idleTicks (record : Array TraceEntry) : List Nat :=
  (record.toList.filter (·.occupant.isNone)).map (·.time)

def busyCount (record : Array TraceEntry) : Nat :=
  record.toList.countP (·.occupant.isSome)

def workedBefore (record : Array TraceEntry) (id time : Nat) : Nat :=
  (heldTicks record id).countP (· < time)

/-- A trace has one entry for each tick from zero on. -/
def Chronological (record : Array TraceEntry) : Prop :=
  record.toList.map (·.time) = List.range record.size

/-- Who held the CPU in a tick; nobody in an idle one or outside the trace. -/
def occupantAt (record : Array TraceEntry) (time : Nat) : Option Nat :=
  record[time]?.bind (·.occupant)

theorem occupantAt_push (record : Array TraceEntry) (entry : TraceEntry) (time : Nat) :
    occupantAt (record.push entry) time =
      if time = record.size then entry.occupant else occupantAt record time := by
  rw [occupantAt, Array.getElem?_push]
  split
  · rfl
  · rfl

theorem occupantAt_of_size_le {record : Array TraceEntry} {time : Nat} (beyond : record.size ≤ time) :
    occupantAt record time = none := by
  simp [occupantAt, beyond]

@[simp]
theorem heldTicks_empty (id : Nat) : heldTicks #[] id = [] := rfl

@[simp]
theorem busyCount_empty : busyCount #[] = 0 := rfl

@[simp]
theorem heldTicks_push_self (record : Array TraceEntry) (time id : Nat) :
    heldTicks (record.push ⟨time, some id⟩) id = heldTicks record id ++ [time] := by
  simp [heldTicks]

theorem heldTicks_push_of_ne {record : Array TraceEntry} {entry : TraceEntry} {id : Nat}
    (other : entry.occupant ≠ some id) :
    heldTicks (record.push entry) id = heldTicks record id := by
  simp [heldTicks, other]

theorem busyCount_push (record : Array TraceEntry) (entry : TraceEntry) :
    busyCount (record.push entry) =
      busyCount record + if entry.occupant.isSome then 1 else 0 := by
  simp [busyCount]

theorem idleTicks_push (record : Array TraceEntry) (entry : TraceEntry) :
    idleTicks (record.push entry) =
      idleTicks record ++ if entry.occupant.isNone then [entry.time] else [] := by
  cases entry with
  | mk time occupant => cases occupant <;> simp [idleTicks]

theorem busyCount_add_idleTicks (record : Array TraceEntry) :
    busyCount record + (idleTicks record).length = record.size := by
  simp only [busyCount, idleTicks, List.length_map, ← List.countP_eq_length_filter,
    ← Array.length_toList]
  rw [List.length_eq_countP_add_countP (·.occupant.isSome)]
  congr 1
  apply List.countP_congr
  intro entry _
  cases entry.occupant <;> simp

section IdleStretch

variable (record : Array TraceEntry) (first ticks : Nat)

theorem occupant_of_mem_idleTrace {first ticks : Nat} {entry : TraceEntry}
    (membership : entry ∈ Machine.idleTrace first ticks) : entry.occupant = none := by
  obtain ⟨time, _, rfl⟩ := List.mem_map.mp membership
  rfl

@[simp]
theorem map_time_idleTrace :
    (Machine.idleTrace first ticks).map (·.time) = List.range' first ticks := by
  simp [Machine.idleTrace, Function.comp_def]

@[simp]
theorem heldTicks_append_idleTrace (id : Nat) :
    heldTicks (record ++ Machine.idleTrace first ticks) id = heldTicks record id := by
  have noneHeld :
      (Machine.idleTrace first ticks).filter (·.occupant == some id) = [] := by
    apply List.filter_eq_nil_iff.mpr
    intro entry membership
    simp [occupant_of_mem_idleTrace membership]
  simp [heldTicks, noneHeld]

@[simp]
theorem busyCount_append_idleTrace :
    busyCount (record ++ Machine.idleTrace first ticks) = busyCount record := by
  have noneBusy :
      (Machine.idleTrace first ticks).countP (·.occupant.isSome) = 0 := by
    apply List.countP_eq_zero.mpr
    intro entry membership
    simp [occupant_of_mem_idleTrace membership]
  simp [busyCount, noneBusy]

@[simp]
theorem idleTicks_append_idleTrace :
    idleTicks (record ++ Machine.idleTrace first ticks) =
      idleTicks record ++ List.range' first ticks := by
  have allIdle :
      (Machine.idleTrace first ticks).filter (·.occupant.isNone) =
        Machine.idleTrace first ticks := by
    apply List.filter_eq_self.mpr
    intro entry membership
    simp [occupant_of_mem_idleTrace membership]
  simp [idleTicks, allIdle]

@[simp]
theorem occupantAt_append_idleTrace (time : Nat) :
    occupantAt (record ++ Machine.idleTrace first ticks) time = occupantAt record time := by
  by_cases inRecord : time < record.size
  · simp [occupantAt, ← Array.getElem?_toList, List.getElem?_append_left, inRecord]
  · have past : occupantAt record time = none := by simp [occupantAt, inRecord]
    rw [past, occupantAt, Option.bind_eq_none_iff]
    intro entry found
    rw [← Array.getElem?_toList, Array.toList_appendList,
      List.getElem?_append_right (by simpa using inRecord)] at found
    exact occupant_of_mem_idleTrace (List.mem_of_getElem? found)

@[simp]
theorem size_append_idleTrace :
    (record ++ Machine.idleTrace first ticks).size = record.size + ticks := by
  simp [← Array.length_toList, Machine.idleTrace]

end IdleStretch

theorem sum_countP_occupant {entries : List TraceEntry} {ids : List Nat} (nodup : ids.Nodup)
    (listed : ∀ entry ∈ entries, ∀ id, entry.occupant = some id → id ∈ ids) :
    (ids.map fun id => entries.countP (·.occupant == some id)).sum =
      entries.countP (·.occupant.isSome) := by
  induction entries with
  | nil => simp
  | cons entry rest inductionHypothesis =>
      have others := inductionHypothesis fun other member =>
        listed other (List.mem_cons_of_mem entry member)
      have one : (ids.map fun id => if entry.occupant == some id then 1 else 0).sum =
          if entry.occupant.isSome then 1 else 0 := by
        cases holder : entry.occupant with
        | none => simp
        | some id =>
            have member := listed entry List.mem_cons_self id holder
            rw [List.sum_map_eq_nsmul_single id]
            · simp [List.count_eq_one_of_mem nodup member]
            · intro other different _
              simp [Ne.symm different]
      simp only [List.countP_cons, List.sum_map_add, others, one]

/-- Every busy tick is held by exactly one job. -/
theorem sum_length_heldTicks {record : Array TraceEntry} {ids : List Nat} (nodup : ids.Nodup)
    (covers : ∀ id, id ∉ ids → heldTicks record id = []) :
    (ids.map fun id => (heldTicks record id).length).sum = busyCount record := by
  have listed : ∀ entry ∈ record.toList, ∀ id, entry.occupant = some id → id ∈ ids := by
    intro entry member id holds
    by_contra missing
    have nowhere := covers id missing
    rw [heldTicks, List.map_eq_nil_iff, List.filter_eq_nil_iff] at nowhere
    exact nowhere entry member (by simp [holds])
  simpa only [heldTicks, busyCount, List.length_map, ← List.countP_eq_length_filter] using
    sum_countP_occupant nodup listed

namespace Chronological

theorem empty : Chronological #[] := rfl

theorem push {record : Array TraceEntry} (ordered : Chronological record)
    (occupant : Option Nat) : Chronological (record.push ⟨record.size, occupant⟩) := by
  unfold Chronological at *
  simp [ordered, List.range_succ]

theorem appendIdle {record : Array TraceEntry} (ordered : Chronological record) (ticks : Nat) :
    Chronological (record ++ Machine.idleTrace record.size ticks) := by
  unfold Chronological at *
  rw [size_append_idleTrace, Array.toList_appendList, List.map_append, ordered,
    map_time_idleTrace, List.range_eq_range', List.range_eq_range']
  simpa using List.range'_append_1 (s := 0) (m := record.size) (n := ticks)

theorem time_of_getElem? {record : Array TraceEntry} (ordered : Chronological record)
    {time : Nat} {entry : TraceEntry} (found : record[time]? = some entry) :
    entry.time = time := by
  have timed : (record.toList.map (·.time))[time]? = some entry.time := by
    simp [found]
  rw [ordered, List.getElem?_eq_some_iff] at timed
  obtain ⟨_, named⟩ := timed
  simpa using named.symm

section Occupants

variable {record : Array TraceEntry} (ordered : Chronological record)

include ordered

theorem toList_eq :
    record.toList = (List.range record.size).map fun time => ⟨time, occupantAt record time⟩ := by
  apply List.ext_getElem?
  intro time
  by_cases inTrace : time < record.size
  · obtain ⟨entry, found⟩ : ∃ entry, record[time]? = some entry :=
      ⟨_, Array.getElem?_eq_getElem inTrace⟩
    have timed := ordered.time_of_getElem? found
    have occupant : occupantAt record time = entry.occupant := by simp [occupantAt, found]
    rw [List.getElem?_map, List.getElem?_range inTrace, Array.getElem?_toList, found,
      Option.map_some, occupant, ← timed]
  · have pastEnd : record.size ≤ time := Nat.le_of_not_lt inTrace
    rw [List.getElem?_eq_none (by simpa using pastEnd),
      List.getElem?_eq_none (by simpa using pastEnd)]

theorem getElem?_eq {time : Nat} (inTrace : time < record.size) :
    record[time]? = some ⟨time, occupantAt record time⟩ := by
  rw [← Array.getElem?_toList, ordered.toList_eq, List.getElem?_map, List.getElem?_range inTrace,
    Option.map_some]

theorem heldTicks_eq (id : Nat) :
    heldTicks record id =
      (List.range record.size).filter fun time => occupantAt record time == some id := by
  rw [heldTicks, ordered.toList_eq, List.filter_map, List.map_map]
  exact List.map_id _

theorem idleTicks_eq :
    idleTicks record =
      (List.range record.size).filter fun time => (occupantAt record time).isNone := by
  rw [idleTicks, ordered.toList_eq, List.filter_map, List.map_map]
  exact List.map_id _

theorem mem_idleTicks {time : Nat} :
    time ∈ idleTicks record ↔ time < record.size ∧ occupantAt record time = none := by
  rw [ordered.idleTicks_eq, List.mem_filter, List.mem_range, Option.isNone_iff_eq_none]

omit ordered in
theorem lt_size_of_occupantAt {time id : Nat} (holds : occupantAt record time = some id) :
    time < record.size := by
  obtain ⟨entry, found, _⟩ := Option.bind_eq_some_iff.mp holds
  exact (Array.getElem?_eq_some_iff.mp found).choose

theorem mem_heldTicks {time id : Nat} :
    time ∈ heldTicks record id ↔ occupantAt record time = some id := by
  rw [ordered.heldTicks_eq, List.mem_filter, List.mem_range, beq_iff_eq]
  exact ⟨And.right, fun holds => ⟨lt_size_of_occupantAt holds, holds⟩⟩

theorem lt_size_of_mem_heldTicks {time id : Nat} (held : time ∈ heldTicks record id) :
    time < record.size :=
  lt_size_of_occupantAt (ordered.mem_heldTicks.mp held)

omit ordered in
theorem workedBefore_of_past {id time : Nat} (past : ∀ tick ∈ heldTicks record id, tick < time) :
    workedBefore record id time = (heldTicks record id).length :=
  List.countP_eq_length.mpr fun tick member => decide_eq_true (past tick member)

omit ordered in
theorem workedBefore_push {id time later : Nat} {occupant : Option Nat} (before : time ≤ later) :
    workedBefore (record.push ⟨later, occupant⟩) id time = workedBefore record id time := by
  by_cases holds : occupant = some id
  · subst holds
    simp [workedBefore, Nat.not_lt_of_le before]
  · rw [workedBefore, heldTicks_push_of_ne holds, workedBefore]

theorem pairwise_heldTicks (id : Nat) : (heldTicks record id).Pairwise (· < ·) := by
  rw [ordered.heldTicks_eq]
  exact List.pairwise_lt_range.filter _

theorem heldTicks_eq_of_subset {other : Array TraceEntry} (otherOrdered : Chronological other)
    {id otherId : Nat} (subset : ∀ time, occupantAt record time = some id →
      occupantAt other time = some otherId)
    (count : (heldTicks other otherId).length ≤ (heldTicks record id).length) :
    heldTicks record id = heldTicks other otherId := by
  have increasing := ordered.pairwise_heldTicks id
  have contained : heldTicks record id ⊆ heldTicks other otherId := fun time held =>
    otherOrdered.mem_heldTicks.mpr (subset time (ordered.mem_heldTicks.mp held))
  have same := (List.subperm_of_subset increasing.nodup contained).perm_of_length_le count
  refine same.eq_of_pairwise ?_ increasing (otherOrdered.pairwise_heldTicks otherId)
  intro first second _ _ before after
  exact absurd before (Nat.lt_asymm after)

theorem heldTicks_eq_of_iff {other : Array TraceEntry} (otherOrdered : Chronological other)
    {id otherId : Nat} (same : ∀ time, occupantAt record time = some id ↔
      occupantAt other time = some otherId) : heldTicks record id = heldTicks other otherId := by
  refine ordered.heldTicks_eq_of_subset otherOrdered (fun time => (same time).mp) ?_
  have contained : heldTicks other otherId ⊆ heldTicks record id := fun time held =>
    ordered.mem_heldTicks.mpr ((same time).mpr (otherOrdered.mem_heldTicks.mp held))
  exact (List.subperm_of_subset (otherOrdered.pairwise_heldTicks otherId).nodup contained).length_le

omit ordered in
theorem countP_lt_succ (ticks : List Nat) (time : Nat) :
    ticks.countP (· < time + 1) = ticks.countP (· < time) + ticks.count time := by
  induction ticks with
  | nil => rfl
  | cons tick rest inductionHypothesis =>
      have one : (if tick < time + 1 then 1 else 0) =
          (if tick < time then 1 else 0) + if tick = time then 1 else 0 := by
        split <;> split <;> split <;> omega
      simp only [List.countP_cons, List.count_cons, inductionHypothesis, decide_eq_true_eq,
        beq_iff_eq, one]
      omega

/-- A tick counts for its occupant and for nobody else. -/
theorem workedBefore_succ (id time : Nat) :
    workedBefore record id (time + 1) =
      workedBefore record id time + if occupantAt record time = some id then 1 else 0 := by
  rw [workedBefore, countP_lt_succ, workedBefore]
  congr 1
  split
  next holds =>
    exact List.count_eq_one_of_mem (ordered.pairwise_heldTicks id).nodup
      (ordered.mem_heldTicks.mpr holds)
  next elsewhere =>
    exact List.count_eq_zero.mpr fun held => elsewhere (ordered.mem_heldTicks.mp held)

theorem head_le_heldTicks {id first : Nat} (isFirst : (heldTicks record id).head? = some first) :
    ∀ time ∈ heldTicks record id, first ≤ time := by
  intro time held
  obtain ⟨late, split⟩ := List.head?_eq_some_iff.mp isFirst
  have increasing := ordered.pairwise_heldTicks id
  rw [split] at increasing held
  rcases List.mem_cons.mp held with rfl | after
  · exact Nat.le_refl time
  · exact Nat.le_of_lt ((List.pairwise_cons.mp increasing).1 time after)

theorem le_last_heldTicks {id last : Nat} (isLast : (heldTicks record id).getLast? = some last) :
    ∀ time ∈ heldTicks record id, time ≤ last := by
  intro time held
  obtain ⟨early, split⟩ := List.getLast?_eq_some_iff.mp isLast
  have increasing := ordered.pairwise_heldTicks id
  rw [split] at increasing held
  rcases List.mem_append.mp held with before | atLast
  · exact Nat.le_of_lt ((List.pairwise_append.mp increasing).2.2 time before _ List.mem_cons_self)
  · exact Nat.le_of_eq (List.mem_singleton.mp atLast)

theorem head?_heldTicks {id first : Nat} (holds : occupantAt record first = some id)
    (earliest : ∀ time, occupantAt record time = some id → first ≤ time) :
    (heldTicks record id).head? = some first := by
  have held := ordered.mem_heldTicks.mpr holds
  cases isFirst : (heldTicks record id).head? with
  | none => simp [List.head?_eq_none_iff.mp isFirst] at held
  | some tick =>
      have notEarlier := earliest tick (ordered.mem_heldTicks.mp (List.mem_of_head? isFirst))
      exact congrArg some (Nat.le_antisymm (ordered.head_le_heldTicks isFirst first held) notEarlier)

theorem getLast?_heldTicks {id last : Nat} (holds : occupantAt record last = some id)
    (latest : ∀ time, occupantAt record time = some id → time ≤ last) :
    (heldTicks record id).getLast? = some last := by
  have held := ordered.mem_heldTicks.mpr holds
  cases isLast : (heldTicks record id).getLast? with
  | none => simp [List.getLast?_eq_none_iff.mp isLast] at held
  | some tick =>
      have notLater := latest tick (ordered.mem_heldTicks.mp (List.mem_of_getLast? isLast))
      exact congrArg some (Nat.le_antisymm notLater (ordered.le_last_heldTicks isLast last held))

theorem countP_elsewhere {id first last : Nat}
    (within : ∀ time ∈ heldTicks record id, first ≤ time ∧ time < last) :
    (List.range' first (last - first)).countP (fun time => occupantAt record time ≠ some id) +
      (heldTicks record id).length = last - first := by
  have same : ((List.range' first (last - first)).filter
      fun time => occupantAt record time = some id).Perm (heldTicks record id) := by
    apply (List.perm_ext_iff_of_nodup (List.Nodup.filter _ List.nodup_range')
      (ordered.pairwise_heldTicks id).nodup).mpr
    intro time
    rw [List.mem_filter, List.mem_range'_1, decide_eq_true_eq, ordered.mem_heldTicks]
    constructor
    · exact And.right
    · intro holds
      have bounds := within time (ordered.mem_heldTicks.mpr holds)
      exact ⟨by omega, holds⟩
  have parts := List.length_eq_countP_add_countP (l := List.range' first (last - first))
    (fun time => occupantAt record time = some id)
  rw [List.countP_eq_length_filter, same.length_eq, List.length_range'] at parts
  simp only [decide_eq_true_eq] at parts
  exact (Nat.add_comm _ _).trans parts.symm

end Occupants

end Chronological

end CpuScheduling
