import CpuScheduling.Proofs.Simulation.SlicedTrace

/-!
The slices of a history as they begin, in the order of its dispatches.  What is said of each of
them and of those before it is kept while slices begin and end.
-/

namespace CpuScheduling

def dispatchesIn (history : List (Nat × Event)) : List (Nat × Nat) :=
  history.filterMap fun
    | (time, .dispatch job _ _) => some (time, job)
    | _ => none

@[simp]
theorem dispatchesIn_append (history later : List (Nat × Event)) :
    dispatchesIn (history ++ later) = dispatchesIn history ++ dispatchesIn later :=
  List.filterMap_append

theorem getElem?_concat_eq_some {Entry : Type} {entries : List Entry} {added entry : Entry}
    {index : Nat} (isEntry : (entries ++ [added])[index]? = some entry) :
    entries[index]? = some entry ∨ index = entries.length ∧ entry = added := by
  rcases Nat.lt_or_ge index entries.length with inRange | beyond
  · rw [List.getElem?_append_left inRange] at isEntry
    exact .inl isEntry
  · have inRange := (List.getElem?_eq_some_iff.mp isEntry).choose
    rw [List.length_append, List.length_singleton] at inRange
    obtain rfl : index = entries.length := by omega
    simp only [List.getElem?_concat_length, Option.some.injEq] at isEntry
    exact .inr ⟨rfl, isEntry.symm⟩

namespace Slicing

/-- When slices have begun, and whose they are. -/
def begun (slicing : Slicing) : List (Nat × Nat) :=
  slicing.ended.map (fun slice => (slice.start, slice.job)) ++
    (slicing.going.map fun (job, start) => (start, job)).toList

@[simp]
theorem begun_close (slicing : Slicing) (stop : Nat) :
    (slicing.close stop).begun = slicing.begun := by
  cases going : slicing.going with
  | none => rw [close_of_idle going]
  | some slice => simp [close_of_going going, begun, going]

theorem begun_start {slicing : Slicing} (resting : slicing.going = none) (job start : Nat) :
    begun { slicing with going := some (job, start) } = slicing.begun ++ [(start, job)] := by
  simp [begun, resting]

theorem length_begun (slicing : Slicing) :
    slicing.begun.length = slicing.ended.length + slicing.inProgress := by
  cases going : slicing.going <;> simp [begun, inProgress, going]

theorem begun_of_idle {slicing : Slicing} (resting : slicing.going = none) :
    slicing.begun = slicing.ended.map fun slice => (slice.start, slice.job) := by
  simp [begun, resting]

def Each (slicing : Slicing) (fits : List Slice → Nat × Nat → Prop) : Prop :=
  ∀ index slice, slicing.begun[index]? = some slice → fits (slicing.ended.take index) slice

namespace Each

variable {slicing : Slicing} {fits other : List Slice → Nat × Nat → Prop}

theorem imp (each : slicing.Each fits)
    (implies : ∀ before, ∀ slice ∈ slicing.begun, fits before slice → other before slice) :
    slicing.Each other := fun index slice isSlice =>
  implies _ slice (List.mem_of_getElem? isSlice) (each index slice isSlice)

theorem close (each : slicing.Each fits) (stop : Nat) : (slicing.close stop).Each fits := by
  intro index slice isSlice
  rw [begun_close] at isSlice
  have fitting := each index slice isSlice
  cases going : slicing.going with
  | none => rwa [close_of_idle going]
  | some current =>
      have inRange := (List.getElem?_eq_some_iff.mp isSlice).choose
      rw [length_begun, inProgress_of_going going] at inRange
      rwa [close_of_going going, List.take_append_of_le_length (by omega)]

theorem start (each : slicing.Each fits) (resting : slicing.going = none) {job now : Nat}
    (fitting : fits slicing.ended (now, job)) :
    Each { slicing with going := some (job, now) } fits := by
  have length := slicing.length_begun
  rw [inProgress_of_idle resting] at length
  intro index slice isSlice
  rw [begun_start resting] at isSlice
  rcases getElem?_concat_eq_some isSlice with before | ⟨rfl, rfl⟩
  · exact each index slice before
  · have whole : slicing.ended.take slicing.begun.length = slicing.ended :=
      List.take_of_length_le (by omega)
    change fits (slicing.ended.take slicing.begun.length) (now, job)
    rwa [whole]

theorem of_idle (each : slicing.Each fits) (resting : slicing.going = none) {index : Nat}
    {slice : Slice} (isSlice : slicing.ended[index]? = some slice) :
    fits (slicing.ended.take index) (slice.start, slice.job) := by
  refine each index _ ?_
  rw [begun_of_idle resting, List.getElem?_map, isSlice, Option.map_some]

end Each

theorem each_empty (fits : List Slice → Nat × Nat → Prop) : Each {} fits := by
  simp [Each, begun]

end Slicing

end CpuScheduling
