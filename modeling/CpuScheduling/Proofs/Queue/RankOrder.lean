import CpuScheduling.Rank
import Mathlib.Order.Defs.Unbundled

/-!
How ranks compare.  The key of a rank is a signed word, so that criteria are told apart up to
the greatest one that has a key of its own: `2 ^ 63 - 1` where the highest comes first, and
`2 ^ 63` where the lowest does, as signed words reach further down than up.  Within that range
the order of ranks is exact, and it is a linear order on all of them.
-/

namespace CpuScheduling.Rank

section Keys

def signed? (value : UInt64) : Option Int64 :=
  if value.toNat ≤ 0x7FFFFFFFFFFFFFFF then some value.toInt64 else none

def negated? (word : Int64) : Option Int64 :=
  if word.toBitVec.negOverflow then none else some (-word)

/-- The key of a criterion in signed words, where the highest comes first. -/
def highestKey (value : UInt64) : Int64 :=
  (signed? value).getD .maxValue

/-- The key of a criterion in signed words, where the lowest comes first, if the negation
leads to one. -/
def lowestKey? (value : UInt64) : Option Int64 :=
  match signed? value with
  | some word => negated? word
  | none => some .minValue

variable {value : UInt64} {word : Int64}

theorem toInt_of_signed? (isSigned : signed? value = some word) : word.toInt = value.toNat := by
  unfold signed? at isSigned
  split at isSigned
  next small =>
    cases isSigned
    have same : value.toInt64.toInt = value.toBitVec.toInt := rfl
    rw [same, BitVec.toInt_eq_toNat_of_lt]
    · rfl
    · change 2 * value.toNat < 0x10000000000000000
      omega
  next => cases isSigned

theorem lt_of_signed?_eq_none (isUnsigned : signed? value = none) :
    0x7FFFFFFFFFFFFFFF < value.toNat := by
  unfold signed? at isUnsigned
  split at isUnsigned
  next => cases isUnsigned
  next great => exact Nat.lt_of_not_le great

theorem exists_negated (nonnegative : 0 ≤ word.toInt) :
    ∃ negation, negated? word = some negation ∧ negation.toInt = -word.toInt := by
  have fits : ¬word.toBitVec.negOverflow = true := by
    rw [BitVec.negOverflow, beq_iff_eq, Int64.toInt_toBitVec]
    intro least
    have negative : -(2 : Int) ^ (64 - 1) < 0 := by decide
    omega
  refine ⟨-word, if_neg fits, ?_⟩
  rw [← Int64.toInt_toBitVec, Int64.toBitVec_neg, BitVec.toInt_neg_of_not_negOverflow fits,
    Int64.toInt_toBitVec]

theorem toInt_highestKey (value : UInt64) (job : Job) :
    (highestKey value).toInt = (highestFirst value.toNat job).key := by
  have isKey :
      (highestFirst value.toNat job).key = min (value.toNat : Int) 0x7FFFFFFFFFFFFFFF := rfl
  unfold highestKey
  cases signs : signed? value with
  | some word =>
      have inWord := word.toInt_le
      rw [Int64.toInt_maxValue] at inWord
      have isValue := toInt_of_signed? signs
      rw [Option.getD_some]
      omega
  | none =>
      have great := lt_of_signed?_eq_none signs
      rw [Option.getD_none, Int64.toInt_maxValue]
      omega

/-- The negation that the key asks for does not overflow. -/
theorem exists_lowestKey (value : UInt64) (job : Job) :
    ∃ word, lowestKey? value = some word ∧ word.toInt = (lowestFirst value.toNat job).key := by
  have isKey :
      (lowestFirst value.toNat job).key = -(min value.toNat 0x8000000000000000 : Nat) := rfl
  unfold lowestKey?
  cases signs : signed? value with
  | some word =>
      have isValue := toInt_of_signed? signs
      have inWord := word.toInt_le
      rw [Int64.toInt_maxValue] at inWord
      obtain ⟨negation, negates, isNegation⟩ := exists_negated (isValue ▸ Int.natCast_nonneg _)
      refine ⟨negation, negates, ?_⟩
      omega
  | none =>
      have great := lt_of_signed?_eq_none signs
      refine ⟨.minValue, rfl, ?_⟩
      rw [Int64.toInt_minValue]
      omega

end Keys

section Comparison

variable {first second : Rank}

theorem compare_eq_gt_iff : compare first second = .gt ↔ second < first := by
  change (compare first.key second.key).then _ = .gt ↔ _
  simp only [lt_iff, Ordering.then_eq_gt, Int.compare_eq_gt, Int.compare_eq_eq,
    Nat.compare_eq_gt, Nat.compare_eq_eq]
  omega

theorem compare_swap (first second : Rank) :
    compare second first = (compare first second).swap := by
  cases compares : compare first second with
  | lt => exact compare_eq_gt_iff.mpr compares
  | eq => exact compare_eq_eq_iff.mpr (compare_eq_eq_iff.mp compares).symm
  | gt => exact compare_eq_gt_iff.mp compares

theorem isLinearOrder : IsLinearOrder Rank fun first second => compare first second ≠ .gt where
  refl rank := by
    rw [ne_eq, compare_eq_gt_iff]
    exact lt_irrefl rank
  trans first second third := by
    simp only [ne_eq, compare_eq_gt_iff, lt_iff]
    omega
  antisymm first second := by
    simp only [ne_eq, compare_eq_gt_iff]
    exact fun notGreater notLower => eq_of_not_lt_of_not_lt notLower notGreater
  total first second := by
    by_cases greater : second < first
    · exact .inr fun lower => lt_asymm greater (compare_eq_gt_iff.mp lower)
    · exact .inl fun isGreater => greater (compare_eq_gt_iff.mp isGreater)

variable {value other : Nat} {job rival : Job}

theorem compare_lowestFirst_iff :
    compare (lowestFirst value job) (lowestFirst other rival) = .gt ↔
      Prod.Lex (· < ·) (Prod.Lex (· < ·) (· < ·))
        (min value 0x8000000000000000, job.arrival, job.id)
        (min other 0x8000000000000000, rival.arrival, rival.id) := by
  simp only [compare_eq_gt_iff, lt_iff, lowestFirst, Prod.lex_def]
  omega

theorem compare_highestFirst_iff :
    compare (highestFirst value job) (highestFirst other rival) = .gt ↔
      min other 0x7FFFFFFFFFFFFFFF < min value 0x7FFFFFFFFFFFFFFF ∨
        min value 0x7FFFFFFFFFFFFFFF = min other 0x7FFFFFFFFFFFFFFF ∧
          Prod.Lex (· < ·) (· < ·) (job.arrival, job.id) (rival.arrival, rival.id) := by
  simp only [compare_eq_gt_iff, lt_iff, highestFirst, Prod.lex_def]
  omega

end Comparison

/-- Ranks compare as their criteria do, up to the greatest criterion that has a key of its own, and
then by arrival and id.  This is a linear order of all ranks, in which only the same ranks are
equal, and the signed words have every key that it goes by. -/
theorem compare_exact_up_to_saturation :
    (∀ (value other : Nat) (job rival : Job),
      compare (lowestFirst value job) (lowestFirst other rival) = .gt ↔
        Prod.Lex (· < ·) (Prod.Lex (· < ·) (· < ·))
          (min value 0x8000000000000000, job.arrival, job.id)
          (min other 0x8000000000000000, rival.arrival, rival.id)) ∧
      (∀ (value other : Nat) (job rival : Job),
        compare (highestFirst value job) (highestFirst other rival) = .gt ↔
          min other 0x7FFFFFFFFFFFFFFF < min value 0x7FFFFFFFFFFFFFFF ∨
            min value 0x7FFFFFFFFFFFFFFF = min other 0x7FFFFFFFFFFFFFFF ∧
              Prod.Lex (· < ·) (· < ·) (job.arrival, job.id) (rival.arrival, rival.id)) ∧
      (IsLinearOrder Rank fun first second => compare first second ≠ .gt) ∧
      (∀ first second : Rank, compare second first = (compare first second).swap) ∧
      (∀ first second : Rank, compare first second = .eq ↔ first = second) ∧
      ∀ (value : UInt64) (job : Job),
        (highestKey value).toInt = (highestFirst value.toNat job).key ∧
          ∃ word, lowestKey? value = some word ∧
            word.toInt = (lowestFirst value.toNat job).key := by
  refine ⟨fun _ _ _ _ => compare_lowestFirst_iff, fun _ _ _ _ => compare_highestFirst_iff,
    isLinearOrder, compare_swap, fun _ _ => compare_eq_eq_iff, fun value job => ?_⟩
  exact ⟨toInt_highestKey value job, exists_lowestKey value job⟩

end CpuScheduling.Rank
