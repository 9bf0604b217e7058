import CpuScheduling.Proofs.Lineup.Conversion

/-!
Time in another unit and from another origin.  Where a unit has many ticks, the line-up
changes hands with the first of them only; in the others the holder works on.
-/

namespace CpuScheduling

namespace Scheduler

def rescaled (unit : Nat) : Scheduler → Scheduler
  | roundRobin quantum => roundRobin (unit * quantum)
  | agingRoundRobin quantum step => agingRoundRobin (unit * quantum) step
  | scheduler => scheduler

@[simp]
theorem isRanked_rescaled (scheduler : Scheduler) (unit : Nat) :
    (scheduler.rescaled unit).isRanked = scheduler.isRanked := by
  cases scheduler <;> rfl

theorem usesUp_rescaled_add {scheduler : Scheduler} {unit used done : Nat} (inUnit : done < unit) :
    (scheduler.rescaled unit).usesUp (unit * used + done) = scheduler.usesUp used := by
  have slice (quantum : Nat) : unit * quantum ≤ unit * used + done ↔ quantum ≤ used := by
    constructor
    · intro whole
      have shorter : unit * quantum < unit * (used + 1) := by
        rw [Nat.mul_succ]
        omega
      exact Nat.le_of_lt_succ (Nat.lt_of_mul_lt_mul_left shorter)
    · intro whole
      exact Nat.le_add_right_of_le (Nat.mul_le_mul_left unit whole)
  cases scheduler <;> simp [usesUp, rescaled, quantum?, slice]

end Scheduler

def Task.rescaled (unit origin : Nat) (task : Task) : Task :=
  { task with arrival := unit * task.arrival + origin, remaining := unit * task.remaining }

section Faithfulness

variable (scheduler : Scheduler) {unit : Nat} (positive : 0 < unit) (origin : Nat)

include positive

theorem criterion_rescaled_lt_iff (first second : Task) :
    (scheduler.rescaled unit).criterion (second.rescaled unit origin) <
        (scheduler.rescaled unit).criterion (first.rescaled unit origin) ↔
      scheduler.criterion second < scheduler.criterion first := by
  cases scheduler with
  | sjf | srtf =>
      simp only [Scheduler.criterion, Scheduler.rescaled, Task.rescaled, Int.neg_lt_neg_iff,
        Int.ofNat_lt, Nat.mul_lt_mul_left positive]
  | _ => rfl

theorem comesBefore_rescaled (first second : Task) :
    (first.rescaled unit origin).comesBefore (second.rescaled unit origin) =
      first.comesBefore second := by
  have earlier : unit * first.arrival + origin < unit * second.arrival + origin ↔
      first.arrival < second.arrival := by
    rw [Nat.add_lt_add_iff_right, Nat.mul_lt_mul_left positive]
  have together : unit * first.arrival + origin = unit * second.arrival + origin ↔
      first.arrival = second.arrival := by
    rw [Nat.add_right_cancel_iff, Nat.mul_right_inj (Nat.ne_of_gt positive)]
  rw [Bool.eq_iff_iff, Task.comesBefore_iff, Task.comesBefore_iff]
  simp only [Task.rescaled, earlier, together]

theorem precedes_rescaled (first second : Task) :
    (scheduler.rescaled unit).precedes (first.rescaled unit origin) (second.rescaled unit origin) =
      scheduler.precedes first second :=
  Scheduler.precedes_congr (Scheduler.isRanked_rescaled scheduler unit)
    (criterion_rescaled_lt_iff scheduler positive origin first second)
    (criterion_rescaled_lt_iff scheduler positive origin second first)
    (comesBefore_rescaled positive origin first second)

theorem faithful_rescaled :
    Faithful scheduler (scheduler.rescaled unit) (fun _ => True) (·.rescaled unit origin)
      (unit * ·) where
  lasting := ⟨fun _ _ => trivial, fun _ _ => trivial, fun _ _ _ => trivial⟩
  precedes first second _ _ := precedes_rescaled scheduler positive origin first second
  overtakes front holder _ _ := by
    cases scheduler with
    | srtf =>
        simp only [Scheduler.overtakes, Scheduler.rescaled, Task.rescaled,
          Nat.mul_lt_mul_left positive]
    | preemptivePriority =>
        have same := precedes_rescaled .preemptivePriority positive origin holder front
        simp only [Scheduler.overtakes, Scheduler.rescaled] at same ⊢
        rw [same]
    | _ => rfl
  usesUp used := Scheduler.usesUp_rescaled_add positive
  unused := Nat.mul_zero unit
  picked _ := by cases scheduler <;> rfl
  reorder waiting _ := by
    cases scheduler with
    | agingRoundRobin quantum step =>
        refine Scheduler.reorder_map (fun task => ?_) fun first _ second _ => ?_
        · simp only [Task.waited]
          split <;> rfl
        · exact precedes_rescaled (.agingRoundRobin quantum step) positive origin _ _
    | _ => rfl

end Faithfulness

/-- A tenure, so many ticks of a unit after it stood like this. -/
def Tenure.partway (unit origin done : Nat) (tenure : Tenure) : Tenure where
  task := { tenure.task.rescaled unit origin with
    remaining := unit * tenure.task.remaining - done }
  used := unit * tenure.used + done

theorem Tenure.partway_worked (tenure : Tenure) (unit origin done : Nat) :
    (tenure.partway unit origin done).worked = tenure.partway unit origin (done + 1) := rfl

theorem Tenure.partway_unit (tenure : Tenure) (unit origin : Nat) :
    tenure.partway unit origin unit = tenure.worked.partway unit origin 0 := by
  simp only [partway, worked, Task.worked, Task.rescaled, Nat.mul_sub_one, Nat.mul_succ, Nat.sub_zero,
    Nat.add_zero]

namespace Lineup

def partway (unit origin done : Nat) (lineup : Lineup) : Lineup where
  holder := lineup.holder.map (·.partway unit origin done)
  waiting := lineup.waiting.map (·.rescaled unit origin)

variable {scheduler : Scheduler} {unit origin done : Nat} {lineup : Lineup}

theorem partway_zero (lineup : Lineup) :
    lineup.partway unit origin 0 = lineup.converted (·.rescaled unit origin) (unit * ·) := rfl

theorem occupant_partway (lineup : Lineup) :
    (lineup.partway unit origin done).occupant = lineup.occupant := by
  cases holder : lineup.holder <;>
    simp [occupant, partway, holder, Tenure.partway, Task.rescaled]

theorem Quiet.partway (quiet : lineup.Quiet scheduler) (inUnit : done < unit) :
    (lineup.partway unit origin done).Quiet (scheduler.rescaled unit) where
  idle nobody := by
    have none : lineup.holder = none := Option.map_eq_none_iff.mp nobody
    simp [Lineup.partway, quiet.idle none]
  slice tenure isHolder := by
    obtain ⟨whole, holds, rfl⟩ := Option.map_eq_some_iff.mp isHolder
    exact (Scheduler.usesUp_rescaled_add inUnit).trans (quiet.slice whole holds)
  front tenure front rest isHolder waiting := by
    obtain ⟨whole, holds, rfl⟩ := Option.map_eq_some_iff.mp isHolder
    obtain ⟨first, others, waits, rfl, rfl⟩ := List.map_eq_cons_iff.mp waiting
    have loses := quiet.front whole first others holds waits
    have faithful := faithful_rescaled scheduler (Nat.zero_lt_of_lt inUnit) origin
    cases scheduler with
    | srtf =>
        have noShorter : ¬first.remaining < whole.task.remaining := by
          simpa [Scheduler.overtakes] using loses
        have more := Nat.mul_le_mul_left unit (Nat.le_of_not_lt noShorter)
        exact decide_eq_false (Nat.not_lt_of_le (Nat.le_trans (Nat.sub_le _ done) more))
    | _ => exact (faithful.overtakes first whole.task trivial trivial).trans loses

theorem work_partway (slices : ∀ tenure, lineup.holder = some tenure →
    scheduler.usesUp tenure.used = false) (inUnit : done + 1 < unit) :
    (lineup.partway unit origin done).work (scheduler.rescaled unit) =
      lineup.partway unit origin (done + 1) := by
  cases holder : lineup.holder with
  | none => simp [work, partway, holder]
  | some tenure =>
      have goesOn : (tenure.partway unit origin done).task.remaining ≠ 1 := by
        simp only [Tenure.partway]
        cases tenure.task.remaining with
        | zero => simp
        | succ left =>
            rw [Nat.mul_succ]
            omega
      have slice : (scheduler.rescaled unit).usesUp ((tenure.partway unit origin done).used + 1) =
          false :=
        (Scheduler.usesUp_rescaled_add inUnit).trans (slices tenure holder)
      simp only [work, partway, holder, Option.map_some, goesOn, slice, Tenure.partway_worked,
        Bool.false_eq_true, ↓reduceIte]

theorem work_partway_last (lineup : Lineup) (last : done + 1 = unit) :
    (lineup.partway unit origin done).work (scheduler.rescaled unit) =
      (lineup.work scheduler).partway unit origin 0 := by
  have positive : 0 < unit := by omega
  have faithful := faithful_rescaled scheduler positive origin
  have reordered := faithful.reorder lineup.waiting fun _ _ => trivial
  cases holder : lineup.holder with
  | none => simp [work, partway, holder]
  | some tenure =>
      have completes : (tenure.partway unit origin done).task.remaining = 1 ↔
          tenure.task.remaining = 1 := by
        simp only [Tenure.partway]
        cases tenure.task.remaining with
        | zero => simp
        | succ left =>
            have rest : unit * (left + 1) - done = unit * left + 1 := by
              rw [Nat.mul_succ]
              omega
            rw [rest, Nat.add_eq_right, Nat.add_eq_right, Nat.mul_eq_zero]
            exact or_iff_right (Nat.ne_of_gt positive)
      have slice : (scheduler.rescaled unit).usesUp ((tenure.partway unit origin done).used + 1) =
          scheduler.usesUp (tenure.used + 1) := by
        simp only [Tenure.partway]
        rw [Nat.add_assoc, last, ← Nat.mul_succ]
        exact faithful.usesUp (tenure.used + 1)
      simp only [work, partway, holder, Option.map_some, completes, slice, reordered,
        Tenure.partway_worked, last, Tenure.partway_unit]
      split
      · rfl
      · cases scheduler.usesUp (tenure.used + 1) <;> rfl

end Lineup

/-- The same tasks come with the first tick of each unit, and nobody in between. -/
structure Rescales (scheduler : Scheduler) (unit origin : Nat) (come other : Nat → List Task) :
    Prop where
  slices : scheduler.usesUp 0 = false
  positive : 0 < unit
  onTime : ∀ time, other (unit * time + origin) = (come time).map (·.rescaled unit origin)
  between : ∀ tick, (∀ time, tick ≠ unit * time + origin) → other tick = []

namespace Rescales

variable {scheduler : Scheduler} {unit origin : Nat} {come other : Nat → List Task}

variable (rescales : Rescales scheduler unit origin come other)

include rescales

theorem before_origin {tick : Nat} (early : tick ≤ origin) :
    Lineup.before (scheduler.rescaled unit) other tick = {} := by
  have begins : Lineup.before (scheduler.rescaled unit) other 0 = {} := rfl
  have nobody : ∀ later, 0 ≤ later → later < 0 + tick → other later = [] := by
    intro later _ past
    refine rescales.between later fun time isTime => ?_
    omega
  rw [← Nat.zero_add tick]
  exact Lineup.before_add_of_empty begins nobody

theorem during_partway {time : Nat}
    (starts : Lineup.before (scheduler.rescaled unit) other (unit * time + origin) =
      (Lineup.before scheduler come time).partway unit origin 0)
    (done : Nat) (inUnit : done < unit) :
    Lineup.during (scheduler.rescaled unit) other (unit * time + origin + done) =
      (Lineup.during scheduler come time).partway unit origin done := by
  have quiet := Lineup.quiet_during rescales.slices come time
  induction done with
  | zero =>
      have faithful := faithful_rescaled scheduler rescales.positive origin
      rw [Nat.add_zero, Lineup.during, starts, rescales.onTime, Lineup.partway_zero,
        Lineup.partway_zero]
      exact Lineup.assign_converted faithful (fun _ _ => trivial)
        ⟨fun _ _ => trivial, fun _ _ => trivial⟩
  | succ done inductionHypothesis =>
      have nobody : other (unit * time + origin + (done + 1)) = [] := by
        refine rescales.between _ fun later isLater => ?_
        have after : time < later := Nat.lt_of_mul_lt_mul_left (a := unit) (by omega)
        have whole := Nat.mul_le_mul_left unit (Nat.succ_le_of_lt after)
        rw [Nat.mul_succ] at whole
        omega
      rw [Lineup.during, nobody, ← Nat.add_assoc, Lineup.before_succ,
        inductionHypothesis (Nat.lt_of_succ_lt inUnit), Lineup.work_partway quiet.slice inUnit]
      exact (quiet.partway inUnit).assign_nil

theorem before (time : Nat) :
    Lineup.before (scheduler.rescaled unit) other (unit * time + origin) =
      (Lineup.before scheduler come time).partway unit origin 0 := by
  induction time with
  | zero => 
      rw [Nat.mul_zero, Nat.zero_add, rescales.before_origin (Nat.le_refl origin)]
      rfl
  | succ time inductionHypothesis =>
      obtain ⟨last, isLast⟩ : ∃ last, last + 1 = unit :=
        ⟨unit - 1, Nat.sub_add_cancel rescales.positive⟩
      have isNext : unit * (time + 1) + origin = unit * time + origin + last + 1 := by
        rw [Nat.mul_succ]
        omega
      rw [isNext, Lineup.before_succ, rescales.during_partway inductionHypothesis last (by omega),
        Lineup.work_partway_last _ isLast, Lineup.before_succ]

theorem during (time : Nat) {done : Nat} (inUnit : done < unit) :
    Lineup.during (scheduler.rescaled unit) other (unit * time + origin + done) =
      (Lineup.during scheduler come time).partway unit origin done :=
  rescales.during_partway (rescales.before time) done inUnit

/-- Whoever has a tick has all ticks of its unit. -/
theorem occupant (time : Nat) {done : Nat} (inUnit : done < unit) :
    (Lineup.during (scheduler.rescaled unit) other (unit * time + origin + done)).occupant =
      (Lineup.during scheduler come time).occupant := by
  rw [rescales.during time inUnit, Lineup.occupant_partway]

theorem occupant_origin {tick : Nat} (early : tick < origin) :
    (Lineup.during (scheduler.rescaled unit) other tick).occupant = none := by
  have nobody : other tick = [] := rescales.between tick fun time isTime => by omega
  rw [Lineup.during, rescales.before_origin (Nat.le_of_lt early), nobody]
  rfl

end Rescales

end CpuScheduling
