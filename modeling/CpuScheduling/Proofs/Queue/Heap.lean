import CpuScheduling.ReadyQueue

/-!
The entries of a ranked queue: which are there after each operation, and which one is first.
-/

namespace CpuScheduling

namespace RankedHeap

variable {heap : RankedHeap} {entry other : Ranked} {id : Nat}

theorem mem_insert :
    other ∈ (heap.insert entry).entries ↔ other ∈ heap.entries ∨ other = entry := by
  rw [insert, (BinaryHeap.insert_perm Ranked.precedes heap.entries entry).mem_iff, Array.mem_push]

theorem mem_of_mem_tail (member : other ∈ heap.tail.entries) : other ∈ heap.entries := by
  have left := (BinaryHeap.dropFirst_perm Ranked.precedes heap.entries).mem_iff.mp
    (Array.mem_toList_iff.mpr member)
  exact Array.mem_toList_iff.mp (List.mem_of_mem_tail left)

theorem exists_entry (queued : id ∈ heap.ids) : ∃ entry ∈ heap.entries, entry.id = id := by
  have member := heap.ids_perm.mem_iff.mp queued
  simpa [members] using member

theorem mem_ids {entry : Ranked} (member : entry ∈ heap.entries) : entry.id ∈ heap.ids :=
  heap.ids_perm.mem_iff.mpr (List.mem_map_of_mem (Array.mem_toList_iff.mpr member))

theorem mem_replace {place : Fin heap.entries.size} (nodup : heap.ids.Nodup)
    (found : heap.place? id = some place) :
    other ∈ (heap.replace place entry).entries ↔
      other = entry ∨ other ∈ heap.entries ∧ other.id ≠ id := by
  have atFound : heap.entries[place.val].id = id := id_of_place? found
  have replaced := BinaryHeap.replace_perm Ranked.precedes heap.entries place place.isLt entry
  rw [replace, replaced.mem_iff]
  constructor
  · intro member
    obtain ⟨index, inHeap, isOther⟩ := Array.mem_iff_getElem.mp member
    rw [Array.size_set] at inHeap
    by_cases atPlace : place.val = index
    · subst atPlace
      simp only [Array.getElem_set_self] at isOther
      exact .inl isOther.symm
    · rw [Array.getElem_set_ne place.isLt inHeap atPlace] at isOther
      refine .inr ⟨isOther ▸ Array.getElem_mem inHeap, fun same => atPlace ?_⟩
      have sameId : heap.members[place.val]? = heap.members[index]? := by
        simp [members, place.isLt, inHeap, isOther, same, atFound]
      have inMembers : place.val < heap.members.length := by simp [members]
      exact (List.getElem?_inj inMembers (heap.ids_perm.nodup_iff.mp nodup)).mp sameId
  · rintro (rfl | ⟨member, different⟩)
    · exact Array.mem_iff_getElem.mpr ⟨place, by simp, Array.getElem_set_self ..⟩
    · obtain ⟨index, inHeap, isOther⟩ := Array.mem_iff_getElem.mp member
      have elsewhere : place.val ≠ index := by
        rintro rfl
        exact different (isOther ▸ atFound)
      refine Array.mem_iff_getElem.mpr ⟨index, by simpa using inHeap, ?_⟩
      rw [Array.getElem_set_ne place.isLt inHeap elsewhere, isOther]

/-- No entry has a greater rank than the first one. -/
theorem first?_rank (picked : heap.first? = some id) :
    ∃ entry ∈ heap.entries, entry.id = id ∧ ∀ other ∈ heap.entries, ¬entry.rank < other.rank := by
  cases layout : heap.entries.toList with
  | nil =>
      have noEntry : heap.entries = #[] := by simpa using layout
      simp [first?, noEntry] at picked
  | cons front rest =>
      have isFirst : heap.entries[0]? = some front := by
        rw [← Array.getElem?_toList, layout, List.getElem?_cons_zero]
      have member : front ∈ heap.entries := Array.mem_of_getElem? isFirst
      refine ⟨front, member, by simpa [first?, isFirst] using picked, fun other isOther => ?_⟩
      have listed := Array.mem_toList_iff.mpr isOther
      rw [layout] at listed
      rcases List.mem_cons.mp listed with rfl | later
      · exact Rank.lt_irrefl _
      · exact Ranked.precedes_iff.mp (first_precedes layout other later)

theorem mem_tail (nodup : heap.ids.Nodup) (picked : heap.first? = some id) :
    other ∈ heap.tail.entries ↔ other ∈ heap.entries ∧ other.id ≠ id := by
  have left : other ∈ heap.tail.entries ↔ other ∈ heap.entries.toList.tail :=
    Array.mem_toList_iff.symm.trans
      (BinaryHeap.dropFirst_perm Ranked.precedes heap.entries).mem_iff
  rw [left, ← Array.mem_toList_iff]
  have once := heap.ids_perm.nodup_iff.mp nodup
  unfold first? at picked
  rw [← Array.getElem?_toList] at picked
  unfold members at once
  cases layout : heap.entries.toList with
  | nil => simp
  | cons front rest =>
      rw [layout, List.getElem?_cons_zero, Option.map_some, Option.some.injEq] at picked
      rw [layout, List.map_cons, List.nodup_cons, picked] at once
      rw [List.tail_cons, List.mem_cons]
      constructor
      · intro later
        exact ⟨.inr later, fun same => once.1 (same ▸ List.mem_map_of_mem later)⟩
      · rintro ⟨rfl | later, different⟩
        · exact absurd picked different
        · exact later

theorem tail_of_ids_eq_nil (empty : heap.ids = []) : heap.tail = heap := by
  have noMember : heap.members = [] := (empty ▸ heap.ids_perm.symm).eq_nil
  have noEntry : heap.entries = #[] := by
    simpa [members] using noMember
  cases heap with
  | mk entries ordered =>
      cases noEntry
      simp [tail, BinaryHeap.dropFirst]

end RankedHeap

theorem ReadyQueue.tail_of_ids_eq_nil {queue : ReadyQueue} (empty : queue.ids = []) :
    queue.tail = queue := by
  cases queue with
  | fifo waiting =>
      cases empty
      rfl
  | ranked heap => rw [tail, RankedHeap.tail_of_ids_eq_nil empty]

end CpuScheduling
