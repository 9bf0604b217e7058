/-!
Binary heaps in arrays.  An array is read as a binary tree, level by level, and
it is a heap when each value may precede its children.  `raise` and `sink` mend
a heap in which one value has moved: they swap that value with its parent, or
with the child that precedes the other, until it is in its place.

A value moves only past one that may not precede it, or that it may not precede,
and of two equal children the right one leads.  This fixes the order in which
equal values leave a heap.

Main statements: `insert`, `replace` and `dropFirst` keep a heap
(`heapOrdered_insert`, `heapOrdered_replace`, `heapOrdered_dropFirst`) and lose no
other value (`insert_perm`, `replace_perm`, `dropFirst_perm`), and the first value
of a heap precedes all of them (`HeapOrdered.first_precedes`).
-/

namespace CpuScheduling

namespace BinaryHeap

variable {Alpha : Type}

/-- The places of the two children in the tree that is laid out level by level. -/
def IsChild (child parent : Nat) : Prop :=
  child = 2 * parent + 1 ∨ child = 2 * parent + 2

def HeapOrdered (precedes : Alpha → Alpha → Bool) (values : Array Alpha) : Prop :=
  ∀ (parent child : Nat) (parentIn : parent < values.size) (childIn : child < values.size),
    IsChild child parent → precedes values[parent] values[child]

/-- Move the value at a place towards the root, past each parent that may not
precede it. -/
def raise (precedes : Alpha → Alpha → Bool) (values : Array Alpha) (place : Nat)
    (placeIn : place < values.size) : Array Alpha :=
  if place = 0 then values
  else if precedes values[(place - 1) / 2] values[place] then values
  else
    raise precedes (values.swap ((place - 1) / 2) place) ((place - 1) / 2)
      (by rw [Array.size_swap]; omega)
termination_by place

def leadingChild (precedes : Alpha → Alpha → Bool) (values : Array Alpha) (place : Nat)
    (leftIn : 2 * place + 1 < values.size) : Nat :=
  if rightIn : 2 * place + 2 < values.size then
    if precedes values[2 * place + 2] values[2 * place + 1] then 2 * place + 2
    else 2 * place + 1
  else 2 * place + 1

theorem leadingChild_lt {precedes : Alpha → Alpha → Bool} {values : Array Alpha} {place : Nat}
    (leftIn : 2 * place + 1 < values.size) :
    leadingChild precedes values place leftIn < values.size := by
  unfold leadingChild
  split
  · split <;> omega
  · exact leftIn

theorem isChild_leadingChild (precedes : Alpha → Alpha → Bool) {values : Array Alpha}
    {place : Nat} (leftIn : 2 * place + 1 < values.size) :
    IsChild (leadingChild precedes values place leftIn) place := by
  unfold leadingChild IsChild
  split
  · split <;> omega
  · omega

/-- Move the value at a place towards the leaves, past each leading child that
it may not precede. -/
def sink (precedes : Alpha → Alpha → Bool) (values : Array Alpha) (place : Nat)
    (placeIn : place < values.size) : Array Alpha :=
  if leftIn : 2 * place + 1 < values.size then
    have childIn := leadingChild_lt leftIn
    if precedes values[place] (values[leadingChild precedes values place leftIn]) then values
    else
      sink precedes (values.swap place (leadingChild precedes values place leftIn))
        (leadingChild precedes values place leftIn) (by rwa [Array.size_swap])
  else values
termination_by values.size - place
decreasing_by
  have below := isChild_leadingChild precedes leftIn
  rw [Array.size_swap]
  unfold IsChild at below
  omega

theorem raise_perm (precedes : Alpha → Alpha → Bool) (values : Array Alpha) (place : Nat)
    (placeIn : place < values.size) :
    (raise precedes values place placeIn).Perm values := by
  fun_induction raise precedes values place placeIn with
  | case1 => exact .refl _
  | case2 => exact .refl _
  | case3 values place placeIn notRoot unordered inductionHypothesis =>
      exact inductionHypothesis.trans (Array.swap_perm ..)

theorem sink_perm (precedes : Alpha → Alpha → Bool) (values : Array Alpha) (place : Nat)
    (placeIn : place < values.size) :
    (sink precedes values place placeIn).Perm values := by
  fun_induction sink precedes values place placeIn with
  | case1 => exact .refl _
  | case2 values place placeIn leftIn childIn unordered inductionHypothesis =>
      exact inductionHypothesis.trans (Array.swap_perm ..)
  | case3 => exact .refl _

def insert (precedes : Alpha → Alpha → Bool) (values : Array Alpha) (value : Alpha) :
    Array Alpha :=
  raise precedes (values.push value) values.size (by rw [Array.size_push]; omega)

def replace (precedes : Alpha → Alpha → Bool) (values : Array Alpha) (place : Nat)
    (placeIn : place < values.size) (value : Alpha) : Array Alpha :=
  if precedes value values[place] then
    raise precedes (values.set place value) place (by rwa [Array.size_set])
  else
    sink precedes (values.set place value) place (by rwa [Array.size_set])

def dropFirst (precedes : Alpha → Alpha → Bool) (values : Array Alpha) : Array Alpha :=
  if several : 1 < values.size then
    have firstIn : 0 < values.pop.size := by rw [Array.size_pop]; omega
    sink precedes (values.pop.set 0 values[values.size - 1]) 0 (by rwa [Array.size_set])
  else #[]

theorem insert_perm (precedes : Alpha → Alpha → Bool) (values : Array Alpha) (value : Alpha) :
    (insert precedes values value).Perm (values.push value) :=
  raise_perm ..

theorem replace_perm (precedes : Alpha → Alpha → Bool) (values : Array Alpha) (place : Nat)
    (placeIn : place < values.size) (value : Alpha) :
    (replace precedes values place placeIn value).Perm (values.set place value) := by
  unfold replace
  split
  · exact raise_perm ..
  · exact sink_perm ..

theorem dropFirst_perm (precedes : Alpha → Alpha → Bool) (values : Array Alpha) :
    (dropFirst precedes values).toList.Perm values.toList.tail := by
  unfold dropFirst
  split
  next several =>
    apply (sink_perm ..).toList.trans
    obtain ⟨values⟩ := values
    cases values with
    | nil => exact .refl _
    | cons first rest =>
        have occupied : rest ≠ [] := by
          intro empty
          simp [empty] at several
        have layout : (first :: rest).dropLast = first :: rest.dropLast :=
          List.dropLast_cons_of_ne_nil occupied
        have last : (first :: rest)[rest.length] = rest.getLast occupied := by
          rw [← List.getLast_cons occupied, List.getLast_eq_getElem]
          rfl
        simp only [List.pop_toArray, List.set_toArray, List.getElem_toArray, layout,
          List.size_toArray, List.length_cons, Nat.add_sub_cancel, last, List.set_cons_zero,
          List.tail_cons]
        exact (List.perm_append_singleton _ _).symm.trans
          (.of_eq (List.dropLast_concat_getLast occupied))
  next few =>
    obtain ⟨values⟩ := values
    cases values with
    | nil => exact .refl _
    | cons first rest => simp_all

/-- Only the value at `place` may fail to follow its parent. -/
def OrderedExceptAbove (precedes : Alpha → Alpha → Bool) (values : Array Alpha)
    (place : Nat) : Prop :=
  ∀ (parent child : Nat) (parentIn : parent < values.size) (childIn : child < values.size),
    child ≠ place → IsChild child parent → precedes values[parent] values[child]

/-- Only the value at `place` may fail to precede its children. -/
def OrderedExceptBelow (precedes : Alpha → Alpha → Bool) (values : Array Alpha)
    (place : Nat) : Prop :=
  ∀ (parent child : Nat) (parentIn : parent < values.size) (childIn : child < values.size),
    parent ≠ place → IsChild child parent → precedes values[parent] values[child]

def Bridged (precedes : Alpha → Alpha → Bool) (values : Array Alpha) (place : Nat) : Prop :=
  ∀ (parent child : Nat) (parentIn : parent < values.size) (childIn : child < values.size),
    IsChild place parent → IsChild child place → precedes values[parent] values[child]

section Order

variable {precedes : Alpha → Alpha → Bool} {values : Array Alpha} {place : Nat}
  (total : ∀ first second, precedes first second ∨ precedes second first)
  (transitive : ∀ first second third,
    precedes first second → precedes second third → precedes first third)

include transitive in
theorem OrderedExceptAbove.swap {above : Nat} (elsewhere : OrderedExceptAbove precedes values place)
    (bridged : Bridged precedes values place) (aboveIn : above < values.size)
    (placeIn : place < values.size) (isAbove : IsChild place above)
    (reversed : precedes values[place] values[above]) :
    OrderedExceptAbove precedes (values.swap above place) above := by
  intro parent child parentIn childIn moved below
  have parentFits : parent < values.size := Array.size_swap .. ▸ parentIn
  have childFits : child < values.size := Array.size_swap .. ▸ childIn
  by_cases atPlace : child = place
  · have fromAbove : parent = above := by
      unfold IsChild at below isAbove
      omega
    subst atPlace fromAbove
    rw [Array.getElem_swap_left, Array.getElem_swap_right]
    exact reversed
  · rw [Array.getElem_swap_of_ne moved atPlace]
    by_cases fromPlace : parent = place
    · subst fromPlace
      rw [Array.getElem_swap_right]
      exact bridged _ _ aboveIn childFits isAbove below
    · by_cases fromAbove : parent = above
      · subst fromAbove
        rw [Array.getElem_swap_left]
        exact transitive _ _ _ reversed (elsewhere _ _ aboveIn childFits atPlace below)
      · rw [Array.getElem_swap_of_ne fromAbove fromPlace]
        exact elsewhere _ _ parentFits childFits atPlace below

include transitive in
theorem OrderedExceptAbove.bridged_swap {above : Nat}
    (elsewhere : OrderedExceptAbove precedes values place) (aboveIn : above < values.size)
    (placeIn : place < values.size) (isAbove : IsChild place above) :
    Bridged precedes (values.swap above place) above := by
  intro parent child parentIn childIn overAbove below
  have parentFits : parent < values.size := Array.size_swap .. ▸ parentIn
  have childFits : child < values.size := Array.size_swap .. ▸ childIn
  have order : parent < above ∧ above < place ∧ above < child := by
    unfold IsChild at overAbove below isAbove
    omega
  have bridge : precedes values[parent] values[above] :=
    elsewhere _ _ parentFits aboveIn (by omega) overAbove
  rw [Array.getElem_swap_of_ne (by omega) (by omega)]
  by_cases atPlace : child = place
  · subst atPlace
    rw [Array.getElem_swap_right]
    exact bridge
  · rw [Array.getElem_swap_of_ne (by omega) atPlace]
    exact transitive _ _ _ bridge (elsewhere _ _ aboveIn childFits atPlace below)

include total transitive in
/-- Raising a value mends a heap in which only that value may fail to follow
its parent. -/
theorem heapOrdered_raise {placeIn : place < values.size}
    (elsewhere : OrderedExceptAbove precedes values place)
    (bridged : Bridged precedes values place) :
    HeapOrdered precedes (raise precedes values place placeIn) := by
  fun_induction raise precedes values place placeIn with
  | case1 values placeIn =>
      intro parent child parentIn childIn below
      apply elsewhere _ _ parentIn childIn ?_ below
      unfold IsChild at below
      omega
  | case2 values place placeIn notRoot ordered =>
      intro parent child parentIn childIn below
      by_cases atPlace : child = place
      · have fromAbove : parent = (place - 1) / 2 := by
          unfold IsChild at below
          omega
        subst atPlace fromAbove
        exact ordered
      · exact elsewhere _ _ parentIn childIn atPlace below
  | case3 values place placeIn notRoot unordered inductionHypothesis =>
      have aboveIn : (place - 1) / 2 < values.size := by omega
      have isAbove : IsChild place ((place - 1) / 2) := by
        unfold IsChild
        omega
      apply inductionHypothesis
      · exact elsewhere.swap transitive bridged aboveIn placeIn isAbove
          ((total _ _).resolve_left unordered)
      · exact elsewhere.bridged_swap transitive aboveIn placeIn isAbove

include total in
theorem precedes_leadingChild {child : Nat} (leftIn : 2 * place + 1 < values.size)
    (leadingIn : leadingChild precedes values place leftIn < values.size)
    (childIn : child < values.size) (below : IsChild child place) :
    precedes values[leadingChild precedes values place leftIn] values[child] := by
  have reflexive : ∀ value, precedes value value := fun value => (total value value).elim id id
  unfold leadingChild
  rcases below with left | right
  · subst left
    split
    · split
      next ordered => exact ordered
      next => exact reflexive _
    · exact reflexive _
  · subst right
    split
    · split
      next => exact reflexive _
      next unordered => exact (total _ _).resolve_left unordered
    next outside => exact absurd childIn outside

theorem OrderedExceptBelow.swap {leading : Nat}
    (elsewhere : OrderedExceptBelow precedes values place)
    (bridged : Bridged precedes values place) (placeIn : place < values.size)
    (leadingIn : leading < values.size) (isLeading : IsChild leading place)
    (leads : ∀ (child : Nat) (childIn : child < values.size), IsChild child place →
      precedes values[leading] values[child])
    (reversed : precedes values[leading] values[place]) :
    OrderedExceptBelow precedes (values.swap place leading) leading := by
  intro parent child parentIn childIn moved below
  have parentFits : parent < values.size := Array.size_swap .. ▸ parentIn
  have childFits : child < values.size := Array.size_swap .. ▸ childIn
  by_cases fromPlace : parent = place
  · subst fromPlace
    rw [Array.getElem_swap_left]
    by_cases atLeading : child = leading
    · subst atLeading
      rw [Array.getElem_swap_right]
      exact reversed
    · have atPlace : child ≠ parent := by
        unfold IsChild at below
        omega
      rw [Array.getElem_swap_of_ne atPlace atLeading]
      exact leads _ childFits below
  · rw [Array.getElem_swap_of_ne fromPlace moved]
    by_cases atPlace : child = place
    · subst atPlace
      rw [Array.getElem_swap_left]
      exact bridged _ _ parentFits leadingIn below isLeading
    · have atLeading : child ≠ leading := by
        unfold IsChild at below isLeading
        omega
      rw [Array.getElem_swap_of_ne atPlace atLeading]
      exact elsewhere _ _ parentFits childFits fromPlace below

theorem OrderedExceptBelow.bridged_swap {leading : Nat}
    (elsewhere : OrderedExceptBelow precedes values place) (placeIn : place < values.size)
    (leadingIn : leading < values.size) (isLeading : IsChild leading place) :
    Bridged precedes (values.swap place leading) leading := by
  intro parent child parentIn childIn overLeading below
  have parentFits : parent < values.size := Array.size_swap .. ▸ parentIn
  have childFits : child < values.size := Array.size_swap .. ▸ childIn
  have fromPlace : parent = place := by
    unfold IsChild at overLeading isLeading
    omega
  have order : place < leading ∧ leading < child := by
    unfold IsChild at below isLeading
    omega
  subst fromPlace
  rw [Array.getElem_swap_left, Array.getElem_swap_of_ne (by omega) (by omega)]
  exact elsewhere _ _ leadingIn childFits (by omega) below

include total transitive in
/-- Sinking a value mends a heap in which only that value may fail to precede
its children. -/
theorem heapOrdered_sink {placeIn : place < values.size}
    (elsewhere : OrderedExceptBelow precedes values place)
    (bridged : Bridged precedes values place) :
    HeapOrdered precedes (sink precedes values place placeIn) := by
  fun_induction sink precedes values place placeIn with
  | case1 values place placeIn leftIn leadingIn ordered =>
      intro parent child parentIn childIn below
      by_cases fromPlace : parent = place
      · subst fromPlace
        exact transitive _ _ _ ordered (precedes_leadingChild total leftIn leadingIn childIn below)
      · exact elsewhere _ _ parentIn childIn fromPlace below
  | case2 values place placeIn leftIn leadingIn unordered inductionHypothesis =>
      have isLeading := isChild_leadingChild precedes leftIn
      apply inductionHypothesis
      · exact elsewhere.swap bridged placeIn leadingIn isLeading
          (fun _ childIn below => precedes_leadingChild total leftIn leadingIn childIn below)
          ((total _ _).resolve_left unordered)
      · exact elsewhere.bridged_swap placeIn leadingIn isLeading
  | case3 values place placeIn childless =>
      intro parent child parentIn childIn below
      apply elsewhere _ _ parentIn childIn ?_ below
      unfold IsChild at below
      omega

include total transitive in
theorem HeapOrdered.first_precedes (ordered : HeapOrdered precedes values)
    (placeIn : place < values.size) : precedes values[0] values[place] := by
  induction place using Nat.strongRecOn with
  | _ place inductionHypothesis =>
      by_cases root : place = 0
      · subst root
        exact (total _ _).elim id id
      · have aboveIn : (place - 1) / 2 < values.size := by omega
        have isAbove : IsChild place ((place - 1) / 2) := by
          unfold IsChild
          omega
        exact transitive _ _ _ (inductionHypothesis _ (by omega) aboveIn)
          (ordered _ _ aboveIn placeIn isAbove)

include total transitive in
theorem heapOrdered_insert (ordered : HeapOrdered precedes values) (value : Alpha) :
    HeapOrdered precedes (insert precedes values value) := by
  apply heapOrdered_raise total transitive
  · intro parent child parentIn childIn moved below
    have childFits : child < values.size := by
      rw [Array.size_push] at childIn
      omega
    have parentFits : parent < values.size := by
      unfold IsChild at below
      omega
    rw [Array.getElem_push_lt parentFits, Array.getElem_push_lt childFits]
    exact ordered _ _ parentFits childFits below
  · intro parent child parentIn childIn above below
    rw [Array.size_push] at childIn
    unfold IsChild at below
    omega

theorem HeapOrdered.exceptAbove_set (ordered : HeapOrdered precedes values)
    (placeIn : place < values.size) {value : Alpha}
    (leads : ∀ (child : Nat) (childIn : child < values.size), IsChild child place →
      precedes value values[child]) :
    OrderedExceptAbove precedes (values.set place value) place := by
  intro parent child parentIn childIn moved below
  have parentFits : parent < values.size := Array.size_set .. ▸ parentIn
  have childFits : child < values.size := Array.size_set .. ▸ childIn
  rw [Array.getElem_set_ne placeIn childFits moved.symm]
  by_cases fromPlace : parent = place
  · subst fromPlace
    rw [Array.getElem_set_self]
    exact leads _ childFits below
  · rw [Array.getElem_set_ne placeIn parentFits (Ne.symm fromPlace)]
    exact ordered _ _ parentFits childFits below

theorem HeapOrdered.exceptBelow_set (ordered : HeapOrdered precedes values)
    (placeIn : place < values.size) {value : Alpha}
    (follows : ∀ (parent : Nat) (parentIn : parent < values.size), IsChild place parent →
      precedes values[parent] value) :
    OrderedExceptBelow precedes (values.set place value) place := by
  intro parent child parentIn childIn moved below
  have parentFits : parent < values.size := Array.size_set .. ▸ parentIn
  have childFits : child < values.size := Array.size_set .. ▸ childIn
  rw [Array.getElem_set_ne placeIn parentFits moved.symm]
  by_cases atPlace : child = place
  · subst atPlace
    rw [Array.getElem_set_self]
    exact follows _ parentFits below
  · rw [Array.getElem_set_ne placeIn childFits (Ne.symm atPlace)]
    exact ordered _ _ parentFits childFits below

include transitive in
theorem HeapOrdered.bridged_set (ordered : HeapOrdered precedes values)
    (placeIn : place < values.size) (value : Alpha) :
    Bridged precedes (values.set place value) place := by
  intro parent child parentIn childIn above below
  have parentFits : parent < values.size := Array.size_set .. ▸ parentIn
  have childFits : child < values.size := Array.size_set .. ▸ childIn
  have order : parent < place ∧ place < child := by
    unfold IsChild at above below
    omega
  rw [Array.getElem_set_ne placeIn parentFits (by omega),
    Array.getElem_set_ne placeIn childFits (by omega)]
  exact transitive _ _ _ (ordered _ _ parentFits placeIn above)
    (ordered _ _ placeIn childFits below)

include total transitive in
theorem heapOrdered_replace (ordered : HeapOrdered precedes values)
    (placeIn : place < values.size) (value : Alpha) :
    HeapOrdered precedes (replace precedes values place placeIn value) := by
  unfold replace
  split
  next early =>
    apply heapOrdered_raise total transitive
    · apply ordered.exceptAbove_set placeIn
      intro child childIn below
      exact transitive _ _ _ early (ordered _ _ placeIn childIn below)
    · exact ordered.bridged_set transitive placeIn value
  next late =>
    apply heapOrdered_sink total transitive
    · apply ordered.exceptBelow_set placeIn
      intro parent parentIn above
      exact transitive _ _ _ (ordered _ _ parentIn placeIn above)
        ((total _ _).resolve_left late)
    · exact ordered.bridged_set transitive placeIn value

theorem HeapOrdered.pop (ordered : HeapOrdered precedes values) :
    HeapOrdered precedes values.pop := by
  intro parent child parentIn childIn below
  rw [Array.getElem_pop, Array.getElem_pop]
  exact ordered _ _ _ _ below

include total transitive in
theorem heapOrdered_dropFirst (ordered : HeapOrdered precedes values) :
    HeapOrdered precedes (dropFirst precedes values) := by
  unfold dropFirst
  split
  next several =>
    have firstIn : 0 < values.pop.size := by
      rw [Array.size_pop]
      omega
    apply heapOrdered_sink total transitive
    · apply ordered.pop.exceptBelow_set firstIn
      intro parent parentIn above
      unfold IsChild at above
      omega
    · exact ordered.pop.bridged_set transitive firstIn _
  next =>
    intro parent child parentIn
    exact absurd parentIn (Nat.not_lt_zero parent)

end Order

end BinaryHeap

end CpuScheduling
