import CpuScheduling.Proofs.Simulation.Optimality
import CpuScheduling.Proofs.Simulation.TurnOrder
import Mathlib.Algebra.Group.Action.Defs
import Mathlib.Order.Interval.Finset.Nat

/-!
Round robin is fair.  While a job waits, every other job has one slice at most: whoever has had one
enters the queue behind the job that waits.  This bounds each period in which a job waits, and with
the number of its slices all of them together.
-/

namespace CpuScheduling

/-- The ticks that a job has within a period. -/
def ticksWithin (record : Array TraceEntry) (id : Nat) (period : Nat × Nat) : Nat :=
  ((Finset.Ico period.1 period.2).filter fun time => occupantAt record time = some id).card

section Periods

variable {slices : List Slice} {job : Job}

theorem mem_take_of_lt {place index : Nat} {slice : Slice} (isSlice : slices[place]? = some slice)
    (ahead : place < index) : slice ∈ slices.take index := by
  obtain ⟨inRange, rfl⟩ := List.getElem?_eq_some_iff.mp isSlice
  exact List.mem_take_iff_getElem.mpr ⟨place, by omega, rfl⟩

theorem exists_of_mem_waitingPeriods {period : Nat × Nat}
    (member : period ∈ waitingPeriods slices job) :
    ∃ index slice, slices[index]? = some slice ∧ slice.job = job.id ∧
      period = (waitingSince (slices.take index) job, slice.start) := by
  induction slices using List.reverseRecOn with
  | nil => simp [waitingPeriods, gaps] at member
  | append_singleton early last inductionHypothesis =>
      have earlier (inEarly : period ∈ waitingPeriods early job) :
          ∃ index slice, (early ++ [last])[index]? = some slice ∧ slice.job = job.id ∧
            period = (waitingSince ((early ++ [last]).take index) job, slice.start) := by
        obtain ⟨index, slice, isSlice, own, isPeriod⟩ := inductionHypothesis inEarly
        have inRange := (List.getElem?_eq_some_iff.mp isSlice).choose
        refine ⟨index, slice, ?_, own, ?_⟩
        · rw [List.getElem?_append_left inRange, isSlice]
        · rw [List.take_append_of_le_length (Nat.le_of_lt inRange), isPeriod]
      by_cases own : last.job = job.id
      · rw [waitingPeriods_concat_self own] at member
        rcases List.mem_append.mp member with inEarly | isLast
        · exact earlier inEarly
        · refine ⟨early.length, last, List.getElem?_concat_length, own, ?_⟩
          rw [List.take_left]
          exact List.mem_singleton.mp isLast
      · rw [waitingPeriods_concat_of_ne own] at member
        exact earlier member

theorem stop_le_waitingSince (apart : slices.Pairwise fun first second => first.stop ≤ second.start)
    (ordered : ∀ slice ∈ slices, slice.start ≤ slice.stop) {slice : Slice} (member : slice ∈ slices)
    (own : slice.job = job.id) : slice.stop ≤ waitingSince slices job := by
  induction slices using List.reverseRecOn with
  | nil => cases member
  | append_singleton early last inductionHypothesis =>
      obtain ⟨apartEarly, _, before⟩ := List.pairwise_append.mp apart
      have lastOrdered := ordered last (by simp)
      by_cases ownLast : last.job = job.id
      · rw [waitingSince_concat_self ownLast]
        rcases List.mem_append.mp member with inEarly | isLast
        · exact (before slice inEarly last List.mem_cons_self).trans lastOrdered
        · exact Nat.le_of_eq (congrArg Slice.stop (List.mem_singleton.mp isLast))
      · rw [waitingSince_concat_of_ne ownLast]
        rcases List.mem_append.mp member with inEarly | isLast
        · exact inductionHypothesis apartEarly
            (fun other inside => ordered other (List.mem_append_left _ inside)) inEarly
        · cases List.mem_singleton.mp isLast
          exact absurd own ownLast

theorem arrival_le_waitingSince
    (come : ∀ slice ∈ slices, slice.job = job.id → job.arrival ≤ slice.stop) :
    job.arrival ≤ waitingSince slices job := by
  induction slices using List.reverseRecOn with
  | nil => exact Nat.le_refl _
  | append_singleton early last inductionHypothesis =>
      by_cases own : last.job = job.id
      · rw [waitingSince_concat_self own]
        exact come last (by simp) own
      · rw [waitingSince_concat_of_ne own]
        exact inductionHypothesis fun slice member => come slice (List.mem_append_left _ member)

/-- The time of a job is spent waiting and in its slices. -/
theorem sum_gaps {since : Nat} {own : List Slice} (come : ∀ slice ∈ own, since ≤ slice.start)
    (apart : own.Pairwise fun first second => first.stop ≤ second.start)
    (ordered : ∀ slice ∈ own, slice.start ≤ slice.stop) :
    since + ((gaps since own).map fun period => period.2 - period.1).sum +
        (own.map fun slice => slice.stop - slice.start).sum =
      own.foldl (fun _ slice => slice.stop) since := by
  induction own generalizing since with
  | nil => simp [gaps]
  | cons first rest inductionHypothesis =>
      obtain ⟨before, apartRest⟩ := List.pairwise_cons.mp apart
      have hereafter := inductionHypothesis before apartRest
        fun slice member => ordered slice (List.mem_cons_of_mem first member)
      have firstCome := come first List.mem_cons_self
      have firstOrdered := ordered first List.mem_cons_self
      simp only [gaps, List.map_cons, List.sum_cons, List.foldl_cons]
      omega

theorem length_waitingPeriods (slices : List Slice) (job : Job) :
    (waitingPeriods slices job).length = (lengths slices job.id).length := by
  have sameLength (since : Nat) (own : List Slice) : (gaps since own).length = own.length := by
    induction own generalizing since with
    | nil => rfl
    | cons first rest inductionHypothesis => simp [gaps, inductionHypothesis]
  rw [waitingPeriods, sameLength, lengths, List.length_map]

end Periods

theorem Job.leftBefore_anti {record : Array TraceEntry} (job : Job) {early late : Nat}
    (notLater : early ≤ late) : job.leftBefore record late ≤ job.leftBefore record early := by
  refine Nat.sub_le_sub_left (List.countP_mono_left fun tick _ before => ?_) job.service
  simp only [decide_eq_true_eq] at before ⊢
  omega

namespace TurnByTurn

variable {workload : List Spec} {quantum : Nat} {history : List (Nat × Event)}
  {record : Array TraceEntry} {slices : List Slice} {job : Job} {period : Nat × Nat}
  (turns : TurnByTurn workload quantum history record slices)

include turns

theorem stop_le {slice : Slice} (member : slice ∈ slices) :
    slice.start ≤ slice.stop ∧ slice.stop ≤ slice.start + quantum := by
  obtain ⟨_, _, lasts⟩ := turns.lasts slice member
  have stop := lasts.stop
  omega

theorem start_lt_stop (positive : 0 < quantum) {slice : Slice} (member : slice ∈ slices) :
    slice.start < slice.stop := by
  obtain ⟨_, _, lasts⟩ := turns.lasts slice member
  have stop := lasts.stop
  have unserved := lasts.unserved
  omega

theorem stop_le_start {first second : Nat} {early late : Slice} (before : first < second)
    (isEarly : slices[first]? = some early) (isLate : slices[second]? = some late) :
    early.stop ≤ late.start := by
  obtain ⟨inRange, rfl⟩ := List.getElem?_eq_some_iff.mp isEarly
  obtain ⟨alsoInRange, rfl⟩ := List.getElem?_eq_some_iff.mp isLate
  exact List.pairwise_iff_getElem.mp turns.apart first second inRange alsoInRange before

theorem stop_le_since {place index : Nat} {slice : Slice} (isSlice : slices[place]? = some slice)
    (ahead : place < index) (own : slice.job = job.id) :
    slice.stop ≤ waitingSince (slices.take index) job :=
  stop_le_waitingSince (turns.apart.sublist (List.take_sublist _ _))
    (fun _ member => (turns.stop_le (List.mem_of_mem_take member)).1)
    (mem_take_of_lt isSlice ahead) own

theorem exists_ahead {time id index : Nat} {slice : Slice} (isSlice : slices[index]? = some slice)
    (inTime : time < slice.start) (holds : occupantAt record time = some id) :
    ∃ place turn, place < index ∧ slices[place]? = some turn ∧ turn.job = id ∧
      turn.start ≤ time ∧ time < turn.stop := by
  obtain ⟨turn, member, ofTurn, begun, goesOn⟩ := (turns.held time id).mp holds
  obtain ⟨place, isPlace⟩ := List.mem_iff_getElem?.mp member
  refine ⟨place, turn, ?_, isPlace, ofTurn, begun, goesOn⟩
  rcases Nat.lt_trichotomy place index with ahead | rfl | behind
  · exact ahead
  · cases isPlace.symm.trans isSlice
    omega
  · have apart := turns.stop_le_start behind isSlice isPlace
    have ordered := (turns.stop_le (List.mem_of_getElem? isSlice)).1
    omega

theorem exists_entry {index : Nat} {slice : Slice} (isSlice : slices[index]? = some slice) :
    ∃ entry, (entries workload quantum record slices)[index]? = some entry ∧
      entry.job = slice.job ∧ entry.time ≤ slice.start := by
  obtain ⟨entry, isEntry, start⟩ := turns.prompt index slice isSlice
  have sameJob := congrArg (·[index]?) turns.ordered
  simp only [List.getElem?_map, isSlice, isEntry, Option.map_some, Option.some.injEq] at sameJob
  exact ⟨entry, isEntry, sameJob.symm, by omega⟩

/-- Whoever has had a slice and has another one before a job that waits has entered the queue for it
before that job, so the first of the two was over when that job began to wait. -/
theorem stop_le_of_twice {first second index : Nat} {early late slice : Slice}
    (submitted : job ∈ Job.ofWorkload workload) (isEarly : slices[first]? = some early)
    (isLate : slices[second]? = some late) (isSlice : slices[index]? = some slice)
    (own : slice.job = job.id) (same : early.job = late.job) (before : first < second)
    (ahead : second < index) : early.stop ≤ waitingSince (slices.take index) job := by
  obtain ⟨other, isOther, lasts⟩ := turns.lasts late (List.mem_of_getElem? isLate)
  obtain ⟨lateEntry, isLateEntry, ofLate, _⟩ := turns.exists_entry isLate
  obtain ⟨entry, isEntry, ofSlice, _⟩ := turns.exists_entry isSlice
  have lateSince := turns.since other isOther second lateEntry isLateEntry
    (ofLate.trans lasts.own.symm)
  have since := turns.since job submitted index entry isEntry (ofSlice.trans own)
  have sorted := pairwise_sortByInsertion Entry.before_total Entry.before_trans
    ((Job.ofWorkload workload).map .ofArrival ++
      (slices.filter (·.Unfinished workload record)).map (.ofReturn quantum))
  obtain ⟨inRange, rfl⟩ := List.getElem?_eq_some_iff.mp isLateEntry
  obtain ⟨alsoInRange, rfl⟩ := List.getElem?_eq_some_iff.mp isEntry
  have inTime := Entry.time_le_of_before
    (List.pairwise_iff_getElem.mp sorted second index inRange alsoInRange ahead)
  calc early.stop ≤ waitingSince (slices.take second) other :=
        turns.stop_le_since isEarly before (same.trans lasts.own.symm)
    _ = _ := lateSince.symm
    _ ≤ _ := inTime
    _ = _ := since

/-- While a job waits, nobody has the CPU for more than one slice. -/
theorem ticksWithin_le (submitted : job ∈ Job.ofWorkload workload)
    (member : period ∈ waitingPeriods slices job) (id : Nat) :
    ticksWithin record id period ≤ quantum := by
  obtain ⟨index, slice, isSlice, own, rfl⟩ := exists_of_mem_waitingPeriods member
  unfold ticksWithin
  rcases Finset.eq_empty_or_nonempty ((Finset.Ico (waitingSince (slices.take index) job)
    slice.start).filter fun time => occupantAt record time = some id) with none | ⟨tick, isTick⟩
  · simp [none]
  · simp only [Finset.mem_filter, Finset.mem_Ico] at isTick
    obtain ⟨⟨since, inTime⟩, holds⟩ := isTick
    obtain ⟨place, turn, ahead, isPlace, isTurn, begun, goesOn⟩ :=
      turns.exists_ahead isSlice inTime holds
    have within : ((Finset.Ico (waitingSince (slices.take index) job) slice.start).filter
        fun time => occupantAt record time = some id) ⊆ Finset.Ico turn.start turn.stop := by
      intro time isTime
      simp only [Finset.mem_filter, Finset.mem_Ico] at isTime ⊢
      obtain ⟨⟨alsoSince, alsoInTime⟩, alsoHolds⟩ := isTime
      obtain ⟨otherPlace, otherTurn, alsoAhead, isOtherPlace, isOtherTurn, alsoBegun, alsoGoesOn⟩ :=
        turns.exists_ahead isSlice alsoInTime alsoHolds
      have sameJob : turn.job = otherTurn.job := isTurn.trans isOtherTurn.symm
      rcases Nat.lt_trichotomy place otherPlace with earlier | rfl | later
      · have isOver := turns.stop_le_of_twice submitted isPlace isOtherPlace isSlice own sameJob
          earlier alsoAhead
        omega
      · cases isPlace.symm.trans isOtherPlace
        exact ⟨alsoBegun, alsoGoesOn⟩
      · have isOver := turns.stop_le_of_twice submitted isOtherPlace isPlace isSlice own sameJob.symm
          later ahead
        omega
    have short := (turns.stop_le (List.mem_of_getElem? isPlace)).2
    calc _ ≤ (Finset.Ico turn.start turn.stop).card := Finset.card_le_card within
      _ = turn.stop - turn.start := Nat.card_Ico _ _
      _ ≤ quantum := by omega

theorem arrival_le (positive : 0 < quantum) (serving : Serving workload record)
    (submitted : job ∈ Job.ofWorkload workload) {slice : Slice} (member : slice ∈ slices)
    (own : slice.job = job.id) : job.arrival ≤ slice.start := by
  have holds : occupantAt record slice.start = some job.id :=
    (turns.held _ _).mpr ⟨slice, member, own, Nat.le_refl _, turns.start_lt_stop positive member⟩
  obtain ⟨holder, isHolder, named, arrived, _⟩ := serving.occupied _ _ holds
  cases Job.eq_of_id isHolder submitted named
  exact arrived

theorem ordered_of_waits (submitted : job ∈ Job.ofWorkload workload)
    (member : period ∈ waitingPeriods slices job) : period.1 ≤ period.2 := by
  obtain ⟨index, slice, isSlice, own, rfl⟩ := exists_of_mem_waitingPeriods member
  obtain ⟨entry, isEntry, ofSlice, inTime⟩ := turns.exists_entry isSlice
  have since := turns.since job submitted index entry isEntry (ofSlice.trans own)
  exact Nat.le_trans (Nat.le_of_eq since.symm) inTime

theorem exists_rival (positive : 0 < quantum) (serving : Serving workload record)
    (submitted : job ∈ Job.ofWorkload workload) (member : period ∈ waitingPeriods slices job)
    {time : Nat} (since : period.1 ≤ time) (inTime : time < period.2) :
    ∃ rival ∈ Job.ofWorkload workload, rival ≠ job ∧ occupantAt record time = some rival.id := by
  obtain ⟨index, slice, isSlice, own, rfl⟩ := exists_of_mem_waitingPeriods member
  have isMember := List.mem_of_getElem? isSlice
  have come : job.arrival ≤ waitingSince (slices.take index) job :=
    arrival_le_waitingSince fun other taken isOwn =>
      (turns.arrival_le positive serving submitted (List.mem_of_mem_take taken) isOwn).trans
        (turns.stop_le (List.mem_of_mem_take taken)).1
  have unserved : 0 < job.leftBefore record time := by
    obtain ⟨same, isSame, lasts⟩ := turns.lasts slice isMember
    cases Job.eq_of_id isSame submitted (lasts.own.trans own)
    exact lasts.unserved.trans_le (job.leftBefore_anti (Nat.le_of_lt inTime))
  cases holds : occupantAt record time with
  | none =>
      have done := serving.rests time holds job submitted (come.trans since)
      omega
  | some id =>
      obtain ⟨rival, isRival, named, _⟩ := serving.occupied time id holds
      refine ⟨rival, isRival, ?_, congrArg some named.symm⟩
      rintro rfl
      obtain ⟨place, turn, ahead, isPlace, ofTurn, _, goesOn⟩ :=
        turns.exists_ahead isSlice inTime holds
      have isOver := turns.stop_le_since isPlace ahead (ofTurn.trans named.symm)
      simp only at since
      omega

/-- A job waits for no more than a slice of each other job. -/
theorem waits_le (positive : 0 < quantum) (serving : Serving workload record)
    (submitted : job ∈ Job.ofWorkload workload) (member : period ∈ waitingPeriods slices job) :
    period.2 - period.1 ≤ (workload.length - 1) * quantum := by
  let rivals := ((Job.ofWorkload workload).toFinset.erase job).image fun rival => some rival.id
  have fewer : rivals.card ≤ workload.length - 1 := by
    have all : (Job.ofWorkload workload).toFinset.card ≤ workload.length :=
      (List.toFinset_card_le _).trans (Nat.le_of_eq (by simp [Job.ofWorkload]))
    calc rivals.card ≤ ((Job.ofWorkload workload).toFinset.erase job).card := Finset.card_image_le
      _ = (Job.ofWorkload workload).toFinset.card - 1 :=
        Finset.card_erase_of_mem (List.mem_toFinset.mpr submitted)
      _ ≤ workload.length - 1 := Nat.sub_le_sub_right all 1
  have served : ∀ time ∈ Finset.Ico period.1 period.2, occupantAt record time ∈ rivals := by
    intro time within
    obtain ⟨since, inTime⟩ := Finset.mem_Ico.mp within
    obtain ⟨rival, isRival, other, holds⟩ :=
      turns.exists_rival positive serving submitted member since inTime
    rw [holds]
    exact Finset.mem_image_of_mem _
      (Finset.mem_erase.mpr ⟨other, List.mem_toFinset.mpr isRival⟩)
  have once : ∀ occupant ∈ rivals, ((Finset.Ico period.1 period.2).filter
      fun time => occupantAt record time = occupant).card ≤ quantum := by
    intro occupant isRival
    obtain ⟨rival, _, rfl⟩ := Finset.mem_image.mp isRival
    exact turns.ticksWithin_le submitted member rival.id
  calc period.2 - period.1 = (Finset.Ico period.1 period.2).card := (Nat.card_Ico _ _).symm
    _ ≤ quantum * rivals.card := Finset.card_le_mul_card_image_of_maps_to served quantum once
    _ ≤ quantum * (workload.length - 1) := Nat.mul_le_mul_left quantum fewer
    _ = (workload.length - 1) * quantum := Nat.mul_comm _ _

theorem holds_of_own {slice : Slice} {time : Nat}
    (member : slice ∈ slices.filter (·.job = job.id)) (begun : slice.start ≤ time)
    (goesOn : time < slice.stop) : occupantAt record time = some job.id := by
  obtain ⟨isSlice, own⟩ := List.mem_filter.mp member
  exact (turns.held _ _).mpr ⟨slice, isSlice, of_decide_eq_true own, begun, goesOn⟩

theorem exists_own {time : Nat} (holds : occupantAt record time = some job.id) :
    ∃ slice ∈ slices.filter (·.job = job.id), slice.start ≤ time ∧ time < slice.stop := by
  obtain ⟨slice, isSlice, own, within⟩ := (turns.held _ _).mp holds
  exact ⟨slice, List.mem_filter.mpr ⟨isSlice, decide_eq_true own⟩, within⟩

theorem head?_heldTicks (positive : 0 < quantum) (ordered : Chronological record) {first : Slice}
    {late : List Slice} (isFirst : slices.filter (·.job = job.id) = first :: late) :
    (heldTicks record job.id).head? = some first.start := by
  have apart := turns.apart.filter (·.job = job.id)
  have member : first ∈ slices.filter (·.job = job.id) := by simp [isFirst]
  have lasts := turns.start_lt_stop positive (List.mem_of_mem_filter member)
  refine ordered.head?_heldTicks (turns.holds_of_own member (Nat.le_refl _) lasts) ?_
  intro time holds
  obtain ⟨slice, isSlice, begun, _⟩ := turns.exists_own holds
  rw [isFirst] at apart isSlice
  rcases List.mem_cons.mp isSlice with rfl | isLater
  · exact begun
  · have before := (List.pairwise_cons.mp apart).1 slice isLater
    omega

theorem getLast?_heldTicks (positive : 0 < quantum) (ordered : Chronological record) {last : Slice}
    {early : List Slice} (isLast : slices.filter (·.job = job.id) = early ++ [last]) :
    (heldTicks record job.id).getLast? = some (last.stop - 1) := by
  have apart := turns.apart.filter (·.job = job.id)
  have member : last ∈ slices.filter (·.job = job.id) := by simp [isLast]
  have lasts := turns.start_lt_stop positive (List.mem_of_mem_filter member)
  refine ordered.getLast?_heldTicks (turns.holds_of_own member (by omega) (by omega)) ?_
  intro time holds
  obtain ⟨slice, isSlice, _, goesOn⟩ := turns.exists_own holds
  rw [isLast] at apart isSlice
  rcases List.mem_append.mp isSlice with isEarlier | same
  · have before := (List.pairwise_append.mp apart).2.2 slice isEarlier _ List.mem_cons_self
    omega
  · cases List.mem_singleton.mp same
    omega

theorem own_ne_nil (positive : 0 < quantum) (submitted : job ∈ Job.ofWorkload workload)
    (hasWork : 0 < job.service) : slices.filter (·.job = job.id) ≠ [] := by
  intro none
  have divided := turns.divided job submitted
  rw [portions_cons positive hasWork] at divided
  simp [lengths, none] at divided

theorem sum_waitingPeriods (positive : 0 < quantum) (serving : Serving workload record)
    (submitted : job ∈ Job.ofWorkload workload) :
    job.arrival + ((waitingPeriods slices job).map fun period => period.2 - period.1).sum +
      job.service = waitingSince slices job := by
  have served : ((slices.filter (·.job = job.id)).map fun slice => slice.stop - slice.start).sum =
      job.service := by
    rw [← sum_portions quantum job.service, ← turns.divided job submitted, lengths]
  rw [← served]
  refine sum_gaps (fun slice member => ?_) (turns.apart.filter _) fun slice member =>
    (turns.stop_le (List.mem_of_mem_filter member)).1
  obtain ⟨isSlice, own⟩ := List.mem_filter.mp member
  exact turns.arrival_le positive serving submitted isSlice (of_decide_eq_true own)

theorem response_le (positive : 0 < quantum) (serving : Serving workload record)
    {start completion waiting : Nat} (traced : job.Traced record start completion waiting)
    (submitted : job.blank ∈ Job.ofWorkload workload) :
    start - job.arrival ≤ (workload.length - 1) * quantum := by
  have nonempty := turns.own_ne_nil positive submitted traced.service_pos
  obtain ⟨first, late, isFirst⟩ := List.exists_cons_of_ne_nil nonempty
  have isStart := turns.head?_heldTicks positive serving.chronological isFirst
  obtain rfl : start = first.start := Option.some.inj (traced.first.symm.trans isStart)
  have member : (job.blank.arrival, first.start) ∈ waitingPeriods slices job.blank := by
    rw [waitingPeriods, isFirst]
    exact List.mem_cons_self
  exact turns.waits_le positive serving submitted member

theorem waiting_eq (positive : 0 < quantum) (serving : Serving workload record)
    {start completion waiting : Nat} (traced : job.Traced record start completion waiting)
    (submitted : job.blank ∈ Job.ofWorkload workload) :
    waiting = ((waitingPeriods slices job.blank).map fun period => period.2 - period.1).sum := by
  have nonempty := turns.own_ne_nil positive submitted traced.service_pos
  obtain ⟨early, last, isLast⟩ := (List.eq_nil_or_concat' _).resolve_left nonempty
  have isEnd := turns.getLast?_heldTicks positive serving.chronological isLast
  have endEq : completion - 1 = last.stop - 1 := Option.some.inj (traced.last.symm.trans isEnd)
  have ends : waitingSince slices job.blank = last.stop := by
    rw [waitingSince, isLast, List.foldl_append]
    rfl
  have whole := turns.sum_waitingPeriods positive serving submitted
  have member : last ∈ slices.filter (·.job = job.blank.id) := by simp [isLast]
  have lasts := turns.start_lt_stop positive (List.mem_of_mem_filter member)
  have completed := traced.completion_pos
  have divides := traced.divides
  have books : job.blank.arrival = job.arrival ∧ job.blank.service = job.service := ⟨rfl, rfl⟩
  omega

theorem waiting_le (positive : 0 < quantum) (serving : Serving workload record)
    {start completion waiting : Nat} (traced : job.Traced record start completion waiting)
    (submitted : job.blank ∈ Job.ofWorkload workload) :
    waiting ≤ (job.service + quantum - 1) / quantum * ((workload.length - 1) * quantum) := by
  have number : (waitingPeriods slices job.blank).length =
      (job.service + quantum - 1) / quantum := by
    rw [length_waitingPeriods, turns.divided _ submitted, length_portions positive]
    rfl
  have each : ∀ gap ∈ (waitingPeriods slices job.blank).map fun period => period.2 - period.1,
      gap ≤ (workload.length - 1) * quantum := by
    intro gap member
    obtain ⟨period, isPeriod, rfl⟩ := List.mem_map.mp member
    exact turns.waits_le positive serving submitted isPeriod
  have bounded := List.sum_le_card_nsmul _ _ each
  rwa [List.length_map, number, ← turns.waiting_eq positive serving traced submitted,
    smul_eq_mul] at bounded

end TurnByTurn

variable {workload : List Spec} {config : Config} {schedule : Schedule}

/-- Under round robin nobody has more than a quantum while a job waits, which bounds how long a job
waits for each of its slices, for its first one and in all. -/
theorem simulate_roundRobin_fair {quantum : UInt64}
    (ran : simulate workload config .roundRobin = .ok schedule)
    (given : config.quantum = some quantum) :
    ∀ job ∈ schedule.jobs,
      (∀ period ∈ waitingPeriods (slices workload config .roundRobin) job,
        period.1 ≤ period.2 ∧
          (∀ id, ticksWithin schedule.trace id period ≤ quantum.toNat) ∧
          period.2 - period.1 ≤ (workload.length - 1) * quantum.toNat) ∧
      ∃ response waiting,
        job.response = some response ∧ response ≤ (workload.length - 1) * quantum.toNat ∧
        job.waiting = some waiting ∧
        waiting ≤ (job.service + quantum.toNat - 1) / quantum.toNat *
          ((workload.length - 1) * quantum.toNat) := by
  have required := Config.requiredQuantum_of_simulate ran given
  have positive := Config.requiredQuantum_pos required
  have turns := turnByTurn_of_simulate ran required
  have serving := serving_of_simulate ran
  intro job isJob
  have submitted := blank_mem_of_simulate ran isJob
  refine ⟨fun period member => ?_, ?_⟩
  · have isPeriod : period ∈ waitingPeriods (slices workload config .roundRobin) job.blank := member
    exact ⟨turns.ordered_of_waits submitted isPeriod, turns.ticksWithin_le submitted isPeriod,
      turns.waits_le positive serving submitted isPeriod⟩
  · obtain ⟨start, completion, waiting, traced, _⟩ := (traced_of_simulate ran).2 job isJob
    exact ⟨_, waiting, traced.response_eq, turns.response_le positive serving traced submitted,
      traced.waiting_eq, turns.waiting_le positive serving traced submitted⟩

/-- The last of three jobs waits for a whole slice of each of the others, which is as long as it can
have to wait. -/
theorem simulate_roundRobin_fair_reached :
    ∃ schedule,
      simulate [⟨0, 3, 0⟩, ⟨0, 3, 0⟩, ⟨0, 3, 0⟩] { quantum := some 2, maxTicks := 20 }
        .roundRobin = .ok schedule ∧
      schedule.timeline = [some 1, some 1, some 2, some 2, some 3, some 3, some 1, some 2, some 3] ∧
      waitingPeriods (slices [⟨0, 3, 0⟩, ⟨0, 3, 0⟩, ⟨0, 3, 0⟩]
        { quantum := some 2, maxTicks := 20 } .roundRobin) (.ofSpec 3 ⟨0, 3, 0⟩) = [(0, 4), (6, 8)] ∧
      ∀ job ∈ schedule.jobs,
        (∀ period ∈ waitingPeriods (slices [⟨0, 3, 0⟩, ⟨0, 3, 0⟩, ⟨0, 3, 0⟩]
            { quantum := some 2, maxTicks := 20 } .roundRobin) job,
          period.1 ≤ period.2 ∧ (∀ id, ticksWithin schedule.trace id period ≤ 2) ∧
            period.2 - period.1 ≤ 4) ∧
        ∃ response waiting, job.response = some response ∧ response ≤ 4 ∧
          job.waiting = some waiting ∧ waiting ≤ (job.service + 2 - 1) / 2 * 4 := by
  obtain ⟨schedule, ran, timeline⟩ := exists_of_timeline
    (show (simulate [⟨0, 3, 0⟩, ⟨0, 3, 0⟩, ⟨0, 3, 0⟩] { quantum := some 2, maxTicks := 20 }
      .roundRobin).toOption.map Schedule.timeline =
        some [some 1, some 1, some 2, some 2, some 3, some 3, some 1, some 2, some 3] by
          decide +kernel)
  exact ⟨schedule, ran, timeline, by decide +kernel, simulate_roundRobin_fair ran rfl⟩

end CpuScheduling
