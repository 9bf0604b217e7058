import CpuScheduling.BinaryHeap
import CpuScheduling.Rank
import CpuScheduling.SortedInsertion

/-!
Queued jobs in a heap by rank.  The first entry has the greatest rank; among
entries of equal rank the heap decides.
-/

namespace CpuScheduling

structure Ranked where
  id : Nat
  rank : Rank
  deriving DecidableEq

namespace Ranked

/-- No later than `second`: its rank is not the lower one. -/
def precedes (first second : Ranked) : Bool :=
  !decide (first.rank < second.rank)

theorem precedes_iff {first second : Ranked} :
    precedes first second ↔ ¬first.rank < second.rank := by
  simp [precedes]

theorem precedes_total (first second : Ranked) :
    precedes first second ∨ precedes second first := by
  simp only [precedes_iff, Rank.lt_iff]
  omega

theorem precedes_trans (first second third : Ranked) (early : precedes first second)
    (late : precedes second third) : precedes first third := by
  simp only [precedes_iff, Rank.lt_iff] at *
  omega

end Ranked

structure RankedHeap where
  entries : Array Ranked
  ordered : BinaryHeap.HeapOrdered Ranked.precedes entries
  deriving DecidableEq

namespace RankedHeap

def empty : RankedHeap where
  entries := #[]
  ordered := fun parent _ parentIn => absurd parentIn (Nat.not_lt_zero parent)

def members (heap : RankedHeap) : List Nat :=
  heap.entries.toList.map (·.id)

/-- The ids by rank, the greatest first; ids of equal rank stay in the order of
the heap. -/
def ids (heap : RankedHeap) : List Nat :=
  (sortByInsertion Ranked.precedes heap.entries.toList).map (·.id)

def first? (heap : RankedHeap) : Option Nat :=
  heap.entries[0]?.map (·.id)

def place? (heap : RankedHeap) (id : Nat) : Option (Fin heap.entries.size) :=
  heap.entries.findFinIdx? (·.id == id)

def insert (heap : RankedHeap) (entry : Ranked) : RankedHeap where
  entries := BinaryHeap.insert Ranked.precedes heap.entries entry
  ordered :=
    BinaryHeap.heapOrdered_insert Ranked.precedes_total Ranked.precedes_trans heap.ordered entry

def replace (heap : RankedHeap) (place : Fin heap.entries.size) (entry : Ranked) :
    RankedHeap where
  entries := BinaryHeap.replace Ranked.precedes heap.entries place place.isLt entry
  ordered :=
    BinaryHeap.heapOrdered_replace Ranked.precedes_total Ranked.precedes_trans heap.ordered
      place.isLt entry

def tail (heap : RankedHeap) : RankedHeap where
  entries := BinaryHeap.dropFirst Ranked.precedes heap.entries
  ordered :=
    BinaryHeap.heapOrdered_dropFirst Ranked.precedes_total Ranked.precedes_trans heap.ordered

theorem ids_perm (heap : RankedHeap) : heap.ids.Perm heap.members :=
  (sortByInsertion_perm ..).map _

theorem isSome_place?_iff {heap : RankedHeap} {id : Nat} :
    (heap.place? id).isSome ↔ id ∈ heap.members := by
  rw [place?, Array.isSome_findFinIdx?, Array.any_eq_true']
  simp only [members, beq_iff_eq, List.mem_map, Array.mem_toList_iff]

theorem id_of_place? {heap : RankedHeap} {id : Nat} {place : Fin heap.entries.size}
    (found : heap.place? id = some place) : heap.entries[place].id = id := by
  have ⟨matching, _⟩ := Array.findFinIdx?_eq_some_iff.mp found
  exact beq_iff_eq.mp matching

theorem first_precedes {heap : RankedHeap} {first : Ranked} {rest : List Ranked}
    (layout : heap.entries.toList = first :: rest) :
    ∀ other ∈ rest, first.precedes other := by
  intro other membership
  obtain ⟨place, placeIn, found⟩ := List.getElem_of_mem membership
  have inHeap : place + 1 < heap.entries.size := by
    rw [← Array.length_toList, layout]
    exact Nat.succ_lt_succ placeIn
  have early := heap.ordered.first_precedes Ranked.precedes_total Ranked.precedes_trans inHeap
  simpa only [← Array.getElem_toList, layout, List.getElem_cons_zero, List.getElem_cons_succ,
    found] using early

theorem ids_of_layout {heap : RankedHeap} {first : Ranked} {rest : List Ranked}
    (layout : heap.entries.toList = first :: rest) :
    heap.ids = first.id :: (sortByInsertion Ranked.precedes rest).map (·.id) := by
  unfold ids
  rw [layout, sortByInsertion_cons_of_precedes (first_precedes layout), List.map_cons]

@[simp]
theorem head?_ids (heap : RankedHeap) : heap.ids.head? = heap.first? := by
  unfold first?
  rw [← Array.getElem?_toList]
  cases layout : heap.entries.toList with
  | nil => simp [ids, layout, sortByInsertion]
  | cons first rest => simp [ids_of_layout layout]

theorem ids_tail_perm (heap : RankedHeap) : heap.tail.ids.Perm heap.ids.tail := by
  apply heap.tail.ids_perm.trans
  have dropped := (BinaryHeap.dropFirst_perm Ranked.precedes heap.entries).map (·.id)
  apply List.Perm.trans dropped
  cases layout : heap.entries.toList with
  | nil => simp [ids, layout, sortByInsertion]
  | cons first rest =>
      rw [ids_of_layout layout]
      exact (sortByInsertion_perm Ranked.precedes rest).symm.map _

theorem ids_insert_perm (heap : RankedHeap) (entry : Ranked) :
    (heap.insert entry).ids.Perm (entry.id :: heap.ids) := by
  apply (heap.insert entry).ids_perm.trans
  have entered := (BinaryHeap.insert_perm Ranked.precedes heap.entries entry).toList.map (·.id)
  apply List.Perm.trans entered
  rw [Array.toList_push, List.map_append]
  exact (List.perm_append_singleton ..).trans (heap.ids_perm.symm.cons _)

theorem ids_replace_perm {heap : RankedHeap} {place : Fin heap.entries.size} {entry : Ranked}
    (same : entry.id = heap.entries[place].id) : (heap.replace place entry).ids.Perm heap.ids := by
  apply (heap.replace place entry).ids_perm.trans
  have replaced :=
    (BinaryHeap.replace_perm Ranked.precedes heap.entries place place.isLt entry).toList.map (·.id)
  apply List.Perm.trans replaced
  apply List.Perm.trans (.of_eq _) heap.ids_perm.symm
  rw [Array.toList_set, List.map_set, same]
  apply List.ext_getElem
  · simp [members]
  · intro index left right
    by_cases atPlace : index = place
    · simp [members, atPlace]
    · simp [members, List.getElem_set_ne (Ne.symm atPlace)]

end RankedHeap

end CpuScheduling
