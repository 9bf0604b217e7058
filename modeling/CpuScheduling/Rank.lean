import CpuScheduling.Job

/-!
Ranks order the jobs that wait: the greatest rank is picked first.  The key
carries the policy's criterion; among equal keys the earlier arrival is greater,
then the lower id.

A key is a signed word, so a criterion beyond it stands for the nearest key:
values from `2 ^ 63 - 1` on are alike when the highest is wanted, and from
`2 ^ 63` on when the lowest is.
-/

namespace CpuScheduling

structure Rank where
  key : Int
  arrival : Nat
  id : Nat
  deriving DecidableEq

namespace Rank

def highestFirst (value : Nat) (job : Job) : Rank where
  key := min value 0x7FFFFFFFFFFFFFFF
  arrival := job.arrival
  id := job.id

def lowestFirst (value : Nat) (job : Job) : Rank where
  key := -(min value 0x8000000000000000)
  arrival := job.arrival
  id := job.id

def arrivalOrder (job : Job) : Rank :=
  highestFirst 0 job

instance : Ord Rank where
  compare first second :=
    (compare first.key second.key).then <|
      (compare second.arrival first.arrival).then (compare second.id first.id)

instance : LT Rank where
  lt first second := compare first second = .lt

instance (first second : Rank) : Decidable (first < second) :=
  inferInstanceAs (Decidable (compare first second = .lt))

theorem lt_iff {first second : Rank} :
    first < second ↔
      first.key < second.key ∨ first.key = second.key ∧
        (second.arrival < first.arrival ∨
          second.arrival = first.arrival ∧ second.id < first.id) := by
  change (compare first.key second.key).then _ = .lt ↔ _
  simp only [Ordering.then_eq_lt, Int.compare_eq_lt, Int.compare_eq_eq, Nat.compare_eq_lt,
    Nat.compare_eq_eq]

theorem compare_eq_eq_iff {first second : Rank} :
    compare first second = .eq ↔ first = second := by
  change (compare first.key second.key).then _ = .eq ↔ _
  rcases first with ⟨key, arrival, id⟩
  rcases second with ⟨otherKey, otherArrival, otherId⟩
  simp only [Ordering.then_eq_eq, Int.compare_eq_eq, Nat.compare_eq_eq, mk.injEq]
  exact ⟨fun ⟨keys, arrivals, ids⟩ => ⟨keys, arrivals.symm, ids.symm⟩,
    fun ⟨keys, arrivals, ids⟩ => ⟨keys, arrivals.symm, ids.symm⟩⟩

theorem lt_irrefl (rank : Rank) : ¬rank < rank := by
  simp [lt_iff]

theorem lt_asymm {first second : Rank} (lower : first < second) : ¬second < first := by
  simp only [lt_iff] at *
  omega

theorem eq_of_not_lt_of_not_lt {first second : Rank} (notLower : ¬first < second)
    (notUpper : ¬second < first) : first = second := by
  rcases first with ⟨key, arrival, id⟩
  rcases second with ⟨otherKey, otherArrival, otherId⟩
  simp only [lt_iff] at *
  simp only [mk.injEq]
  omega

end Rank

end CpuScheduling
