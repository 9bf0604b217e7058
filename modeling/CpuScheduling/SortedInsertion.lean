/-!
Lists kept in order by insertion.  `insertSorted` puts a value before the first
one that it may precede, so equal values keep the order in which a list names
them: `sortByInsertion` is stable.
-/

namespace CpuScheduling

variable {Alpha : Type}

/-- Put a value before the first one that it may precede. -/
def insertSorted (precedes : Alpha → Alpha → Bool) (value : Alpha) : List Alpha → List Alpha
  | [] => [value]
  | head :: tail =>
      if precedes value head then value :: head :: tail
      else head :: insertSorted precedes value tail

def sortByInsertion (precedes : Alpha → Alpha → Bool) : List Alpha → List Alpha
  | [] => []
  | head :: tail => insertSorted precedes head (sortByInsertion precedes tail)

theorem insertSorted_perm (precedes : Alpha → Alpha → Bool) (value : Alpha)
    (values : List Alpha) :
    (insertSorted precedes value values).Perm (value :: values) := by
  induction values with
  | nil => exact .refl _
  | cons head tail inductionHypothesis =>
      simp only [insertSorted]
      split
      · exact .refl _
      · exact (inductionHypothesis.cons head).trans (.swap value head tail)

theorem sortByInsertion_perm (precedes : Alpha → Alpha → Bool) (values : List Alpha) :
    (sortByInsertion precedes values).Perm values := by
  induction values with
  | nil => exact .refl _
  | cons head tail inductionHypothesis =>
      exact (insertSorted_perm precedes head _).trans (inductionHypothesis.cons head)

@[simp]
theorem mem_insertSorted {precedes : Alpha → Alpha → Bool} {value other : Alpha}
    {values : List Alpha} :
    other ∈ insertSorted precedes value values ↔ other = value ∨ other ∈ values := by
  simp [(insertSorted_perm precedes value values).mem_iff]

@[simp]
theorem mem_sortByInsertion {precedes : Alpha → Alpha → Bool} {value : Alpha}
    {values : List Alpha} : value ∈ sortByInsertion precedes values ↔ value ∈ values :=
  (sortByInsertion_perm precedes values).mem_iff

@[simp]
theorem length_insertSorted (precedes : Alpha → Alpha → Bool) (value : Alpha)
    (values : List Alpha) :
    (insertSorted precedes value values).length = values.length + 1 :=
  (insertSorted_perm precedes value values).length_eq

theorem insertSorted_of_precedes {precedes : Alpha → Alpha → Bool} {value : Alpha}
    {values : List Alpha} (first : ∀ other ∈ values, precedes value other) :
    insertSorted precedes value values = value :: values := by
  cases values with
  | nil => rfl
  | cons head tail => exact if_pos (first head List.mem_cons_self)

theorem sortByInsertion_cons_of_precedes {precedes : Alpha → Alpha → Bool} {head : Alpha}
    {tail : List Alpha} (first : ∀ other ∈ tail, precedes head other) :
    sortByInsertion precedes (head :: tail) = head :: sortByInsertion precedes tail :=
  insertSorted_of_precedes fun other membership => first other (mem_sortByInsertion.mp membership)

theorem sortByInsertion_of_pairwise {precedes : Alpha → Alpha → Bool} {values : List Alpha}
    (ordered : values.Pairwise fun first second => precedes first second) :
    sortByInsertion precedes values = values := by
  induction values with
  | nil => rfl
  | cons head tail inductionHypothesis =>
      obtain ⟨first, tailOrdered⟩ := List.pairwise_cons.mp ordered
      rw [sortByInsertion_cons_of_precedes first, inductionHypothesis tailOrdered]

theorem insertSorted_congr {precedes other : Alpha → Alpha → Bool} {value : Alpha}
    {values : List Alpha} (same : ∀ present ∈ values, precedes value present = other value present) :
    insertSorted precedes value values = insertSorted other value values := by
  induction values with
  | nil => rfl
  | cons head tail inductionHypothesis =>
      have others := inductionHypothesis fun present member =>
        same present (List.mem_cons_of_mem head member)
      rw [insertSorted, insertSorted, same head List.mem_cons_self, others]

theorem insertSorted_of_not_precedes {precedes : Alpha → Alpha → Bool} {value : Alpha}
    {values : List Alpha} (last : ∀ other ∈ values, ¬precedes value other) :
    insertSorted precedes value values = values ++ [value] := by
  induction values with
  | nil => rfl
  | cons head tail inductionHypothesis =>
      rw [insertSorted, if_neg (last head List.mem_cons_self),
        inductionHypothesis fun other member => last other (List.mem_cons_of_mem head member)]
      rfl

section Map

variable {Beta : Type} {precedes : Alpha → Alpha → Bool} {mapped : Beta → Beta → Bool}
  {convert : Alpha → Beta} {values : List Alpha}

theorem insertSorted_map {value : Alpha}
    (same : ∀ other ∈ values, mapped (convert value) (convert other) = precedes value other) :
    insertSorted mapped (convert value) (values.map convert) =
      (insertSorted precedes value values).map convert := by
  induction values with
  | nil => rfl
  | cons head tail inductionHypothesis =>
      have others := inductionHypothesis fun other member =>
        same other (List.mem_cons_of_mem head member)
      simp only [List.map_cons, insertSorted, same head List.mem_cons_self]
      split
      · rfl
      · rw [others, List.map_cons]

theorem sortByInsertion_map
    (same : ∀ first ∈ values, ∀ second ∈ values,
      mapped (convert first) (convert second) = precedes first second) :
    sortByInsertion mapped (values.map convert) = (sortByInsertion precedes values).map convert := by
  induction values with
  | nil => rfl
  | cons head tail inductionHypothesis =>
      have others := inductionHypothesis fun first isFirst second isSecond =>
        same first (List.mem_cons_of_mem head isFirst) second (List.mem_cons_of_mem head isSecond)
      rw [List.map_cons, sortByInsertion, others, sortByInsertion]
      exact insertSorted_map fun other member => same head List.mem_cons_self other
        (List.mem_cons_of_mem head (mem_sortByInsertion.mp member))

end Map

theorem pairwise_insertSorted {precedes : Alpha → Alpha → Bool}
    (total : ∀ first second, precedes first second ∨ precedes second first)
    (transitive : ∀ first second third,
      precedes first second → precedes second third → precedes first third)
    {value : Alpha} {values : List Alpha}
    (ordered : values.Pairwise fun first second => precedes first second) :
    (insertSorted precedes value values).Pairwise
      fun first second => precedes first second := by
  induction values with
  | nil => simp [insertSorted]
  | cons head tail inductionHypothesis =>
      have ⟨headFirst, tailOrdered⟩ := List.pairwise_cons.mp ordered
      simp only [insertSorted]
      split
      next before =>
        refine List.pairwise_cons.mpr ⟨fun other membership => ?_, ordered⟩
        rcases List.mem_cons.mp membership with equality | inTail
        · exact equality ▸ before
        · exact transitive _ _ _ before (headFirst _ inTail)
      next after =>
        refine List.pairwise_cons.mpr ⟨fun other membership => ?_, inductionHypothesis tailOrdered⟩
        rcases mem_insertSorted.mp membership with equality | inTail
        · exact equality ▸ (total value head).resolve_left after
        · exact headFirst _ inTail

section Filter

variable {precedes : Alpha → Alpha → Bool} {keep : Alpha → Bool} {value : Alpha}

theorem filter_insertSorted_of_dropped (precedes : Alpha → Alpha → Bool)
    (dropped : keep value = false) (values : List Alpha) :
    (insertSorted precedes value values).filter keep = values.filter keep := by
  induction values with
  | nil => simp [insertSorted, dropped]
  | cons head tail inductionHypothesis =>
      simp only [insertSorted]
      split
      · rw [List.filter_cons, dropped, if_neg Bool.false_ne_true]
      · rw [List.filter_cons, List.filter_cons, inductionHypothesis]

/-- In an ordered list a value finds its place among those that are kept, whoever else is there. -/
theorem filter_insertSorted_of_kept
    (transitive : ∀ first second third,
      precedes first second → precedes second third → precedes first third)
    (kept : keep value = true) {values : List Alpha}
    (ordered : values.Pairwise fun first second => precedes first second) :
    (insertSorted precedes value values).filter keep =
      insertSorted precedes value (values.filter keep) := by
  induction values with
  | nil => simp [insertSorted, kept]
  | cons head tail inductionHypothesis =>
      have ⟨headFirst, tailOrdered⟩ := List.pairwise_cons.mp ordered
      simp only [insertSorted]
      split
      next before =>
        have first : ∀ other ∈ (head :: tail).filter keep, precedes value other := by
          intro other member
          rcases List.mem_cons.mp (List.mem_filter.mp member).1 with rfl | inTail
          · exact before
          · exact transitive _ _ _ before (headFirst other inTail)
        rw [List.filter_cons, if_pos kept, insertSorted_of_precedes first]
      next after =>
        rw [List.filter_cons, List.filter_cons, inductionHypothesis tailOrdered]
        split
        · rw [insertSorted, if_neg after]
        · rfl

end Filter

theorem pairwise_sortByInsertion {precedes : Alpha → Alpha → Bool}
    (total : ∀ first second, precedes first second ∨ precedes second first)
    (transitive : ∀ first second third,
      precedes first second → precedes second third → precedes first third)
    (values : List Alpha) :
    (sortByInsertion precedes values).Pairwise fun first second => precedes first second := by
  induction values with
  | nil => exact .nil
  | cons head tail inductionHypothesis =>
      exact pairwise_insertSorted total transitive inductionHypothesis

end CpuScheduling
