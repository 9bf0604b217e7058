import CpuScheduling.Proofs.Lineup.Run
import CpuScheduling.Proofs.Simulation.Entries
import CpuScheduling.Proofs.Simulation.SliceLengths

/-!
The order of turns under round robin.  A job enters the ready queue when it arrives and again
whenever a slice has left it unfinished; it gets its slices in the order of its entries, each as
soon as it has entered and the slice before is over.
-/

namespace CpuScheduling

/-- From when on the CPU is free, once these slices are over. -/
def freeAfter (slices : List Slice) : Nat :=
  slices.getLast?.elim 0 (·.stop)

@[simp]
theorem freeAfter_concat (slices : List Slice) (slice : Slice) :
    freeAfter (slices ++ [slice]) = slice.stop := by
  simp [freeAfter]

theorem freeAfter_le {slices : List Slice} {now : Nat}
    (past : ∀ slice ∈ slices, slice.stop ≤ now) : freeAfter slices ≤ now := by
  cases isLast : slices.getLast? with
  | none => simp [freeAfter, isLast]
  | some last =>
      simpa [freeAfter, isLast] using past last (List.mem_of_getLast? isLast)

def Machine.awake (workload : List Spec) (machine : Machine) : List Job :=
  (arrivals workload).filter fun job => machine.phase? job.id ≠ some .pending

theorem Kernel.Fed.awake_eq {workload : List Spec} {kernel : Kernel} {woken awaited : List Job}
    (fed : kernel.Fed workload woken awaited) : kernel.machine.awake workload = woken := by
  have come : woken.filter (fun job => kernel.machine.phase? job.id ≠ some .pending) = woken :=
    List.filter_eq_self.mpr fun job member => decide_eq_true (fed.come job member).2
  have due : awaited.filter (fun job => kernel.machine.phase? job.id ≠ some .pending) = [] := by
    refine List.filter_eq_nil_iff.mpr fun job member => ?_
    have phase := Job.phase_of_mem_ofWorkload (fed.submitted (.inr member))
    simp [Machine.phase?_of_job? (fed.due job member).2, phase]
  rw [Machine.awake, ← fed.split, List.filter_append, come, due, List.append_nil]

/-- A slice begins as soon as its job has entered and those before it are over. -/
def Prompt (entered : List Entry) (before : List Slice) (slice : Nat × Nat) : Prop :=
  ∃ entry, entered[before.length]? = some entry ∧ slice.1 = max entry.time (freeAfter before)

/-- The queue holds those who have entered and not yet begun, in the order of their entries, and
whoever has begun has done so as soon as it could. -/
structure Slicing.InTurn (workload : List Spec) (entered : List Entry) (slicing : Slicing)
    (machine : Machine) : Prop where
  fifo : ∃ waiting, machine.ready = .fifo waiting
  queued : entered.map (·.job) = slicing.begun.map (·.2) ++ machine.ready.ids
  sorted : entered.Pairwise fun first second => first.before second
  past : ∀ entry ∈ entered, entry.time ≤ machine.now
  prompt : slicing.Each (Prompt entered)
  /-- While the CPU is free, it has become so just now or the first in the queue has just come. -/
  pressing : slicing.going = none → ∀ entry, entered[slicing.ended.length]? = some entry →
    max entry.time (freeAfter slicing.ended) = machine.now
  since : ∀ job ∈ Job.ofWorkload workload, ∀ index entry, entered[index]? = some entry →
    entry.job = job.id → entry.time = waitingSince (slicing.ended.take index) job

namespace Slicing

namespace InTurn

variable {workload : List Spec} {entered : List Entry} {slicing : Slicing} {machine next : Machine}

theorem length_entered (inTurn : slicing.InTurn workload entered machine) :
    entered.length = slicing.ended.length + slicing.inProgress + machine.ready.ids.length := by
  have counted := congrArg List.length inTurn.queued
  simpa [length_begun] using counted

theorem mem_ids (inTurn : slicing.InTurn workload entered machine) {index : Nat} {entry : Entry}
    (isEntry : entered[index]? = some entry) (unserved : slicing.begun.length ≤ index) :
    entry.job ∈ machine.ready.ids := by
  have listed : (entered.map (·.job))[index]? = some entry.job := by
    rw [List.getElem?_map, isEntry, Option.map_some]
  rw [inTurn.queued, List.getElem?_append_right (by simpa using unserved)] at listed
  exact List.mem_of_getElem? listed

theorem later (inTurn : slicing.InTurn workload entered machine)
    (busy : slicing.going = none → machine.ready.ids = []) (ready : next.ready = machine.ready)
    (now : machine.now ≤ next.now) : slicing.InTurn workload entered next where
  fifo := ready ▸ inTurn.fifo
  queued := ready ▸ inTurn.queued
  sorted := inTurn.sorted
  past entry member := (inTurn.past entry member).trans now
  prompt := inTurn.prompt
  pressing := by
    intro resting entry isEntry
    have inRange := (List.getElem?_eq_some_iff.mp isEntry).choose
    have nobody := congrArg List.length (busy resting)
    rw [inTurn.length_entered, inProgress_of_idle resting, nobody] at inRange
    simp at inRange
  since := inTurn.since

theorem enter (entry : Entry) (inTurn : slicing.InTurn workload entered machine)
    (past : ∀ slice ∈ slicing.ended, slice.stop ≤ machine.now) (isNow : entry.time = machine.now)
    (last : ∀ other ∈ entered, other.before entry)
    (since : ∀ job ∈ Job.ofWorkload workload, entry.job = job.id →
      waitingSince slicing.ended job = machine.now)
    {rank : Rank} (joins : machine.ready.push entry.job rank = .ok next.ready)
    (now : next.now = machine.now) : slicing.InTurn workload (entered ++ [entry]) next := by
  obtain ⟨waiting, isFifo⟩ := inTurn.fifo
  have pushed : next.ready = .fifo (waiting ++ [entry.job]) := by
    rw [isFifo] at joins
    exact (Except.ok.inj joins).symm
  have length := inTurn.length_entered
  have old {index : Nat} {other : Entry} (isOther : entered[index]? = some other) :
      (entered ++ [entry])[index]? = some other := by
    rw [List.getElem?_append_left (List.getElem?_eq_some_iff.mp isOther).choose, isOther]
  refine ⟨⟨_, pushed⟩, ?_, ?_, ?_, ?_, ?_, ?_⟩
  · rw [List.map_append, inTurn.queued, pushed, isFifo, List.append_assoc]
    rfl
  · rw [List.pairwise_append]
    refine ⟨inTurn.sorted, List.pairwise_singleton _ _, fun other member newest isNew => ?_⟩
    cases List.mem_singleton.mp isNew
    exact last other member
  · intro other member
    rcases List.mem_append.mp member with before | isNew
    · exact now ▸ inTurn.past other before
    · cases List.mem_singleton.mp isNew
      exact Nat.le_of_eq (isNow.trans now.symm)
  · exact inTurn.prompt.imp fun _ _ _ ⟨other, isOther, prompt⟩ => ⟨other, old isOther, prompt⟩
  · intro resting other isOther
    rw [now]
    rcases getElem?_concat_eq_some isOther with before | ⟨_, rfl⟩
    · exact inTurn.pressing resting other before
    · rw [isNow]
      exact Nat.max_eq_left (freeAfter_le past)
  · intro job submitted index other isOther own
    rcases getElem?_concat_eq_some isOther with before | ⟨rfl, rfl⟩
    · exact inTurn.since job submitted index other before own
    · rw [isNow, List.take_of_length_le (by omega), since job submitted own]

theorem close {holder start : Nat} (inTurn : slicing.InTurn workload entered machine)
    (going : slicing.going = some (holder, start)) (absent : holder ∉ machine.ready.ids)
    (ready : next.ready = machine.ready) (now : machine.now ≤ next.now) :
    (slicing.close next.now).InTurn workload entered next := by
  have isClosed := close_of_going going next.now
  have length := slicing.length_begun
  rw [inProgress_of_going going] at length
  refine ⟨ready ▸ inTurn.fifo, ?_, inTurn.sorted, fun entry member =>
    (inTurn.past entry member).trans now, inTurn.prompt.close _, ?_, ?_⟩
  · rw [begun_close, ready, inTurn.queued]
  · intro _ entry isEntry
    have come := inTurn.past entry (List.mem_of_getElem? isEntry)
    rw [isClosed, freeAfter_concat]
    exact Nat.max_eq_right (come.trans now)
  · intro job submitted index entry isEntry own
    have before := inTurn.since job submitted index entry isEntry own
    rw [isClosed]
    rcases Nat.lt_or_ge slicing.ended.length index with beyond | inRange
    · have waits := inTurn.mem_ids isEntry (by omega)
      have other : holder ≠ job.id := fun same => absent (same ▸ own ▸ waits)
      rw [List.take_of_length_le (by simp; omega), waitingSince_concat_of_ne other, before,
        List.take_of_length_le (by omega)]
    · rw [List.take_append_of_le_length inRange]
      exact before

theorem start {leaving : Nat} (inTurn : slicing.InTurn workload entered machine)
    (resting : slicing.going = none) (picked : machine.ready.peek = some leaving)
    (ready : next.ready = machine.ready.tail) (now : next.now = machine.now) :
    InTurn workload entered { slicing with going := some (leaving, machine.now) } next := by
  obtain ⟨waiting, isFifo⟩ := inTurn.fifo
  rw [isFifo] at picked ready
  obtain ⟨rest, rfl⟩ := List.head?_eq_some_iff.mp picked
  have begun := begun_start resting leaving machine.now
  have length := slicing.length_begun
  rw [inProgress_of_idle resting] at length
  have queued := inTurn.queued
  rw [isFifo] at queued
  have listed : (entered.map (·.job))[slicing.begun.length]? = some leaving := by
    rw [queued, List.getElem?_append_right (by simp)]
    simp [ReadyQueue.ids]
  rw [List.getElem?_map, Option.map_eq_some_iff, length, Nat.add_zero] at listed
  obtain ⟨entry, isEntry, _⟩ := listed
  have prompt := (inTurn.pressing resting entry isEntry).symm
  refine ⟨⟨rest, ready⟩, ?_, inTurn.sorted, now ▸ inTurn.past,
    inTurn.prompt.start resting ⟨entry, isEntry, prompt⟩, by simp, inTurn.since⟩
  rw [begun, queued, ready]
  simp [ReadyQueue.ids, ReadyQueue.tail]

end InTurn

end Slicing

structure Slicing.Accounted (workload : List Spec) (quantum : Nat) (come : List Job)
    (entered : List Entry) (slicing : Slicing) (record : Array TraceEntry) : Prop where
  arrived : entered.filter (fun entry => !entry.returns) = come.map .ofArrival
  returned : entered.filter (·.returns) =
    (slicing.ended.filter (·.Unfinished workload record)).map (.ofReturn quantum)

structure Slicing.TakesTurns (workload : List Spec) (quantum : Nat) (come : List Job)
    (entered : List Entry) (slicing : Slicing) (machine : Machine) : Prop
    extends slicing.InTurn workload entered machine,
      slicing.Accounted workload quantum come entered machine.trace

theorem Machine.ready_of_work {machine worked : Machine} {work : Work}
    (works : machine.recordTrace.runCurrent = .ok (work, worked)) :
    worked.ready = machine.ready := by
  rcases work_ok works with ⟨_, _, rfl⟩ | ⟨_, _, _, _, ⟨_, _, _, rfl⟩ | ⟨_, _, _, _, rfl⟩⟩ <;> rfl

theorem Scheduler.ready_of_closeTick {quantum : Nat} {machine next : Machine} {work : Work}
    (closes : (roundRobin quantum).closeTick work machine = .ok next) :
    next.ready = machine.ready := by
  rcases closeTick_ok closes with ⟨rfl, _⟩ | ⟨_, ends⟩ | ⟨_, _, _, _, _, ends⟩
  · rfl
  · cases ends
    rfl
  · cases ends
    rfl

namespace Slicing

variable {workload : List Spec} {quantum : Nat} {come : List Job} {entered : List Entry}
  {slicing : Slicing} {machine next : Machine}

theorem Accounted.of_leftBefore_eq {record other : Array TraceEntry}
    (accounted : slicing.Accounted workload quantum come entered record)
    (same : ∀ slice ∈ slicing.ended, ∀ job : Job,
      job.leftBefore other slice.stop = job.leftBefore record slice.stop) :
    slicing.Accounted workload quantum come entered other where
  arrived := accounted.arrived
  returned := by
    rw [accounted.returned]
    congr 1
    refine List.filter_congr fun slice ended => decide_eq_decide.mpr ?_
    simp only [Slice.Unfinished, same slice ended]

namespace TakesTurns

theorem of_nobody {told : List (Nat × Event)} (nobody : enteredIn told = [])
    (inTurn : slicing.InTurn workload entered machine)
    (accounted : slicing.Accounted workload quantum come entered machine.trace) :
    slicing.TakesTurns workload quantum come (entered ++ enteredIn told) machine := by
  rw [nobody, List.append_nil]
  exact ⟨inTurn, accounted.arrived, accounted.returned⟩

theorem requeueExpired {news : List Event}
    (turns : slicing.TakesTurns workload quantum come entered machine)
    (measured : slicing.Measured workload quantum machine)
    (late : ∀ entry ∈ entered, entry.returns → entry.time < machine.now)
    (orderly : machine.Orderly workload machine.now []) (elapsed : machine.trace.size = machine.now)
    (requeues : (Scheduler.roundRobin quantum).requeueExpired machine = .ok next)
    (told : next.events = machine.events ++ news) :
    ((stamped machine.now news).foldl after slicing).TakesTurns workload quantum come
      (entered ++ enteredIn (stamped machine.now news)) next := by
  rcases Scheduler.requeueExpired_ok requeues with
    ⟨_, rfl⟩ | ⟨id, job, ready, current, expired, present, absent, joins, rfl⟩
  · obtain rfl : news = [] := by simpa using told
    simpa [enteredIn] using turns
  · obtain rfl : [.sliceExpired id] = news := List.append_cancel_left told
    obtain ⟨start, going⟩ := measured.toCovers.exists_going current
    obtain ⟨own, submitted⟩ := orderly.blank_eq present
    obtain ⟨sameNow, _⟩ := measured.spent id start going
    have usedUp := measured.expired_iff.mp expired
    have isClosed := close_of_going going machine.now
    have unfinished : Slice.Unfinished workload machine.trace ⟨id, start, machine.now⟩ := by
      refine ⟨job.blank, submitted, own, ?_⟩
      rw [orderly.leftBefore_now elapsed present]
      have running := orderly.phase_of_current current present
      have finished_iff := (orderly.balanced id job present).finished_iff
      rw [running] at finished_iff
      exact Nat.pos_of_ne_zero fun done => Phase.noConfusion (finished_iff.mpr done)
    have released : (slicing.close machine.now).InTurn workload entered machine :=
      turns.toInTurn.close going absent rfl (Nat.le_refl _)
    refine ⟨released.enter ⟨machine.now, id, true⟩ measured.toCovers.past_close rfl ?_ ?_ joins rfl,
      ?_, ?_⟩
    · intro other member
      have before := turns.past other member
      refine Entry.before_iff.mpr ?_
      cases returns : other.returns with
      | true => exact .inl (late other member returns)
      | false =>
          rcases Nat.lt_or_eq_of_le before with earlier | now
          · exact .inl earlier
          · exact .inr ⟨now, .inl ⟨rfl, rfl⟩⟩
    · intro other _ isOther
      rw [isClosed, waitingSince_concat_self isOther]
    · simpa [enteredIn, stamped] using turns.arrived
    · have isReturn :
          Entry.ofReturn quantum ⟨id, start, machine.now⟩ = ⟨machine.now, id, true⟩ := by
        simp [Entry.ofReturn, sameNow, usedUp]
      have entered :
          enteredIn (stamped machine.now [.sliceExpired id]) = [⟨machine.now, id, true⟩] :=
        rfl
      change _ = ((slicing.close machine.now).ended.filter
        (·.Unfinished workload machine.trace)).map _
      rw [isClosed, entered, List.filter_append, List.filter_append, turns.returned,
        List.map_append]
      simp [unfinished, isReturn]

theorem dispatch {news : List Event}
    (turns : slicing.TakesTurns workload quantum come entered machine)
    (measured : slicing.Measured workload quantum machine)
    (dispatches : (Scheduler.roundRobin quantum).dispatch machine = .ok next)
    (told : next.events = machine.events ++ news) :
    ((stamped machine.now news).foldl after slicing).TakesTurns workload quantum come
      (entered ++ enteredIn (stamped machine.now news)) next := by
  rcases Scheduler.dispatch_of_quantum? rfl dispatches with ⟨nobody, fills⟩ | ⟨_, rfl⟩
  · rcases Scheduler.fillCpu_ok fills with ⟨_, rfl⟩ | ⟨id, _, _, picked, _, _, _, rfl⟩
    · obtain rfl : news = [] := by simpa using told
      simpa [enteredIn] using turns
    · obtain rfl : [.dispatch id machine.cpu.last (machine.switchesTo id)] = news :=
        List.append_cancel_left told
      exact of_nobody rfl (turns.toInTurn.start (measured.toCovers.idle nobody) picked rfl rfl)
        ⟨turns.arrived, turns.returned⟩
  · obtain rfl : news = [] := by simpa using told
    simpa [enteredIn] using turns

theorem work {worked closed : Machine} {work : Work} {news : List Event}
    (turns : slicing.TakesTurns workload quantum come entered machine)
    (measured : slicing.Measured workload quantum machine)
    (orderly : machine.Orderly workload machine.now []) (elapsed : machine.trace.size = machine.now)
    (idle : machine.cpu.current = none → machine.ready.ids = [])
    (works : machine.recordTrace.runCurrent = .ok (work, worked))
    (closes : (Scheduler.roundRobin quantum).closeTick work worked = .ok closed)
    (isNext : next = (closed.advance 1).drainEvents.2) (later : next.now = machine.now + 1)
    (told : closed.events = machine.events ++ news) :
    ((stamped machine.now news).foldl after slicing).TakesTurns workload quantum come
      (entered ++ enteredIn (stamped machine.now news)) next := by
  have ready : next.ready = machine.ready := by
    have sameReady : next.ready = closed.ready := isNext ▸ rfl
    rw [sameReady, Scheduler.ready_of_closeTick closes, Machine.ready_of_work works]
  have notBefore : machine.now ≤ next.now := by omega
  obtain ⟨pushed, ends⟩ := Machine.spend_ok rfl works closes
  have record : next.trace = machine.trace.push ⟨machine.now, machine.cpu.current⟩ :=
    isNext ▸ pushed
  have accounted : slicing.Accounted workload quantum come entered next.trace :=
    turns.toAccounted.of_leftBefore_eq fun slice ended job => by
      rw [record, Job.leftBefore_push (measured.past slice ended)]
  obtain ⟨nobody, events, _⟩ | ⟨id, job, current, present, rest⟩ := ends
  · rw [events] at told
    obtain rfl : [.cpuIdle 1] = news := List.append_cancel_left told
    exact of_nobody rfl (turns.toInTurn.later (fun _ => idle nobody) ready notBefore) accounted
  · obtain ⟨start, going⟩ := measured.toCovers.exists_going current
    rcases rest with ⟨_, events, _⟩ | ⟨lastTick, events, _⟩
    · obtain rfl : news = [] := by simpa [events] using told
      exact of_nobody rfl (turns.toInTurn.later (by simp [going]) ready notBefore) accounted
    · rw [events] at told
      obtain rfl : [.complete id (machine.now + 1)] = news := List.append_cancel_left told
      have inTurn := turns.toInTurn.close going (orderly.current_absent current) ready notBefore
      rw [later] at inTurn
      have finished : ¬Slice.Unfinished workload next.trace ⟨id, start, machine.now + 1⟩ := by
        rintro ⟨other, isOther, named, unserved⟩
        have last := orderly.leftBefore_recorded elapsed present (by omega)
        obtain ⟨own, submitted⟩ := orderly.blank_eq present
        cases Job.eq_of_id isOther submitted (named.trans own.symm)
        rw [record, current] at unserved
        simp only at unserved
        omega
      have closedAccount : (slicing.close (machine.now + 1)).Accounted workload quantum come entered
          next.trace := by
        refine ⟨accounted.arrived, ?_⟩
        rw [close_of_going going, List.filter_append, accounted.returned]
        simp [finished]
      exact of_nobody rfl inTurn closedAccount

end TakesTurns

end Slicing

namespace Kernel

variable {workload : List Spec} {quantum : Nat}

/-- A job that arrives enters behind all that have come before. -/
theorem Conserving.enters {kernel next : Kernel} {woken awaited : List Job} {job : Job}
    {entered : List Entry} {slicing : Slicing}
    (conserving : kernel.Conserving workload woken (job :: awaited)) (positive : 0 < quantum)
    (come : job.arrival ≤ kernel.machine.now) (wakes : kernel.wake job.id = .ok next)
    (measured : slicing.Measured workload quantum kernel.machine)
    (late : ∀ entry ∈ entered, entry.returns → entry.time < kernel.machine.now)
    (turns : slicing.TakesTurns workload quantum (kernel.machine.awake workload) entered
      kernel.machine) :
    slicing.TakesTurns workload quantum (next.machine.awake workload)
      (entered ++ [⟨kernel.machine.now, job.id, false⟩]) next.machine := by
  have isNow : job.arrival = kernel.machine.now :=
    Nat.le_antisymm come (conserving.due job List.mem_cons_self).1
  have isEntry : Entry.ofArrival job = ⟨kernel.machine.now, job.id, false⟩ := by
    rw [Entry.ofArrival, isNow]
  obtain ⟨_, wakesSame, conserves, woke⟩ := conserving.wake come
  cases wakes.symm.trans wakesSame
  have arrived := turns.arrived
  rw [conserving.awake_eq] at arrived
  have first : ∀ other ∈ entered, other.before (.ofArrival job) := by
    intro other member
    cases returns : other.returns with
    | true => exact Entry.before_iff.mpr (.inl ((late other member returns).trans_eq isNow.symm))
    | false =>
        have listed : other ∈ woken.map .ofArrival := by
          rw [← arrived]
          exact List.mem_filter.mpr ⟨member, by simp [returns]⟩
        obtain ⟨earlier, inWoken, rfl⟩ := List.mem_map.mp listed
        have sorted := pairwise_sortByInsertion arrivesBefore_total arrivesBefore_trans
          (Job.ofWorkload workload)
        have split : sortByInsertion Simulation.arrivesBefore (Job.ofWorkload workload) =
          woken ++ job :: awaited := conserving.split.symm
        rw [split, List.pairwise_append] at sorted
        exact Entry.before_ofArrival (sorted.2.2 earlier inWoken job List.mem_cons_self)
  have past : ∀ slice ∈ slicing.ended, slice.stop ≤ kernel.machine.now := measured.past
  have unstarted := conserving.unstarted rfl positive measured List.mem_cons_self
  have since : ∀ other ∈ Job.ofWorkload workload, job.id = other.id →
      waitingSince slicing.ended other = kernel.machine.now := by
    intro other submitted own
    cases Job.eq_of_id submitted (conserving.submitted (.inr List.mem_cons_self)) own.symm
    rw [waitingSince_of_unstarted unstarted, isNow]
  obtain ⟨found, ready, _, _, _, joins, isNext⟩ := wake_ok wakes
  have isAwake : next.machine.awake workload = woken ++ [job] := conserves.awake_eq
  rw [isAwake, ← isEntry]
  have isReady : next.machine.ready = ready := isNext ▸ rfl
  refine ⟨turns.toInTurn.enter (.ofArrival job) past isNow first since (isReady ▸ joins) woke.now,
    ?_, ?_⟩
  · rw [List.filter_append, arrived, List.map_append]
    rfl
  · rw [List.filter_append, turns.returned, woke.record]
    simp [Entry.ofArrival]

theorem maintained_turns (workload : List Spec) (positive : 0 < quantum) :
    Maintained workload (.roundRobin quantum) fun history kernel =>
      (dispatchesIn history = (Slicing.ofHistory history).begun ∧
        (Slicing.ofHistory history).Measured workload quantum kernel.machine) ∧
      (∀ entry ∈ enteredIn history, entry.returns → entry.time < kernel.machine.now) ∧
      (Slicing.ofHistory history).TakesTurns workload quantum (kernel.machine.awake workload)
        (enteredIn history) kernel.machine where
  wake := by
    rintro history kernel next woken job awaited conserving scheduled come wakes
      ⟨measured, late, turns⟩
    obtain ⟨_, wakesSame, _, woke⟩ := conserving.wake come
    cases wakes.symm.trans wakesSame
    refine ⟨(maintained_measured rfl positive).wake conserving scheduled come wakes measured,
      ?_, ?_⟩
    · intro entry member returns
      rw [enteredIn_append] at member
      rcases List.mem_append.mp member with before | isNew
      · exact woke.now ▸ late entry before returns
      · cases List.mem_singleton.mp isNew
        cases returns
    · rw [Slicing.ofHistory_append, enteredIn_append]
      exact conserving.enters positive come wakes measured.2 late turns
  tick := by
    rintro history kernel woken awaited requeued started work worked closed news conserving
      scheduled _ phases isNews nextOrder change ⟨⟨told, measured⟩, late, turns⟩
    have settled := conserving.orderly.settled
    have requeueNow : requeued.now = kernel.machine.now := phases.requeue.now
    have startNow : started.now = kernel.machine.now := phases.start.now
    have elapsed : started.trace.size = started.now := by
      rw [phases.start.record, startNow, settled.elapsed]
    have requeues := phases.requeues
    have dispatches := phases.dispatches
    have closes := phases.closes
    rw [scheduled] at requeues dispatches closes
    obtain ⟨expired, dispatched, ended, rfl, stages⟩ := phases.exists_stages measured
      (by rw [scheduled]; rfl) positive conserving isNews change
    have turnsRequeued := turns.requeueExpired measured late settled.toOrderly settled.elapsed
      requeues stages.expires
    have turnsStarted := turnsRequeued.dispatch stages.requeued dispatches stages.dispatches
    rw [requeueNow] at turnsStarted
    have turnsNext := turnsStarted.work stages.started phases.startedOrder elapsed phases.idle
      phases.works closes rfl (by rw [startNow]; exact change.now) stages.ends
    rw [startNow] at turnsNext
    refine ⟨(maintained_measured rfl positive).tick conserving scheduled ‹_› phases isNews nextOrder
      change ⟨told, measured⟩, ?_, ?_⟩
    · intro entry member _
      rw [change.now]
      rw [enteredIn_append] at member
      rcases List.mem_append.mp member with before | isNew
      · exact Nat.lt_succ_of_le (turns.past entry before)
      · exact Nat.lt_succ_of_le (Nat.le_of_eq (time_of_enteredIn isNew))
    · have sameAwake : (kernel.afterTick closed).machine.awake workload =
          kernel.machine.awake workload := by
        rw [nextOrder.awake_eq, conserving.awake_eq]
      rw [Slicing.ofHistory_append, enteredIn_append, sameAwake, stamped_append, stamped_append,
        List.foldl_append, List.foldl_append, enteredIn_append, enteredIn_append,
        ← List.append_assoc, ← List.append_assoc]
      exact turnsNext
  rest := by
    rintro history kernel woken awaited ticks time conserving scheduled atRest before
      ⟨measured, late, turns⟩
    refine ⟨(maintained_measured rfl positive).rest time conserving scheduled atRest before
      measured, ?_, ?_⟩
    · intro entry member returns
      rw [enteredIn_append] at member
      have isOld : entry ∈ enteredIn history := by simpa [enteredIn] using member
      exact (late entry isOld returns).trans_le (Nat.le_add_right _ _)
    · rw [Slicing.ofHistory_append, enteredIn_append]
      refine Slicing.TakesTurns.of_nobody rfl
        (turns.toInTurn.later (fun _ => atRest.empty) rfl (Nat.le_add_right _ _))
        (turns.toAccounted.of_leftBefore_eq fun slice ended job => ?_)
      exact Job.leftBefore_append_idleTrace _ _ _ _ _

theorem initial_turns (workload : List Spec) (quantum : Nat) :
    (Slicing.ofHistory []).TakesTurns workload quantum
      ((initial workload (.roundRobin quantum)).machine.awake workload) (enteredIn [])
      (initial workload (.roundRobin quantum)).machine where
  fifo := ⟨[], rfl⟩
  queued := rfl
  sorted := .nil
  past := by simp [enteredIn]
  prompt := Slicing.each_empty _
  pressing := by simp [enteredIn]
  since := by simp [enteredIn]
  arrived := by
    have asleep : (initial workload (.roundRobin quantum)).machine.awake workload = [] := by
      refine List.filter_eq_nil_iff.mpr fun job member => ?_
      have submitted := mem_arrivals.mp member
      have present : (initial workload (.roundRobin quantum)).machine.job? job.id = some job :=
        Machine.job?_of_mem_ofWorkload submitted
      simp [Machine.phase?_of_job? present, Job.phase_of_mem_ofWorkload submitted]
    rw [asleep]
    rfl
  returned := rfl

end Kernel

theorem Slicing.TakesTurns.entered_eq {workload : List Spec} {quantum : Nat} {entered : List Entry}
    {slicing : Slicing} {machine : Machine}
    (turns : slicing.TakesTurns workload quantum (arrivals workload) entered machine) :
    entered = entries workload quantum machine.trace slicing.ended := by
  have sorted := pairwise_sortByInsertion Entry.before_total Entry.before_trans
    ((Job.ofWorkload workload).map .ofArrival ++
      (slicing.ended.filter (·.Unfinished workload machine.trace)).map (.ofReturn quantum))
  refine List.Perm.eq_of_pairwise (fun _ _ _ _ => Entry.before_antisymm) turns.sorted sorted ?_
  have parted : (entered.filter (fun entry => !entry.returns) ++
      entered.filter (·.returns)).Perm entered :=
    List.perm_append_comm.trans (List.filter_append_perm (·.returns) entered)
  rw [turns.arrived, turns.returned] at parted
  exact parted.symm.trans ((((arrivals_perm workload).map _).append_right _).trans
    (sortByInsertion_perm _ _).symm)

/-- Jobs take turns: each gets slices of a quantum or of what it has left, in the order in which
jobs enter the queue. -/
structure TurnByTurn (workload : List Spec) (quantum : Nat) (history : List (Nat × Event))
    (record : Array TraceEntry) (slices : List Slice) : Prop where
  dispatched : dispatchesIn history = slices.map fun slice => (slice.start, slice.job)
  held : ∀ time id, occupantAt record time = some id ↔ InSlice slices id time
  apart : slices.Pairwise fun first second => first.stop ≤ second.start
  lasts : ∀ slice ∈ slices, ∃ job ∈ Job.ofWorkload workload, slice.Lasts quantum record job
  divided : ∀ job ∈ Job.ofWorkload workload, lengths slices job.id = portions quantum job.service
  count : ∀ job ∈ Job.ofWorkload workload,
    (dispatchesIn history).countP (·.2 = job.id) = (job.service + quantum - 1) / quantum
  ordered : slices.map (·.job) = (entries workload quantum record slices).map (·.job)
  /-- A slice begins as soon as its job has entered and the slice before is over. -/
  prompt : ∀ index slice, slices[index]? = some slice →
    ∃ entry, (entries workload quantum record slices)[index]? = some entry ∧
      slice.start = max entry.time (freeAfter (slices.take index))
  /-- A job enters as it arrives, and then as its slices end. -/
  since : ∀ job ∈ Job.ofWorkload workload, ∀ index entry,
    (entries workload quantum record slices)[index]? = some entry → entry.job = job.id →
      entry.time = waitingSince (slices.take index) job

theorem length_lengths (slices : List Slice) (id : Nat) :
    (lengths slices id).length = slices.countP (·.job = id) := by
  rw [lengths, List.length_map, List.countP_eq_length_filter]

variable {workload : List Spec} {config : Config} {schedule : Schedule}

theorem turnByTurn_of_simulate {quantum : Nat}
    (ran : simulate workload config .roundRobin = .ok schedule)
    (required : config.requiredQuantum = .ok quantum) :
    TurnByTurn workload quantum (Simulation.history workload config .roundRobin) schedule.trace
      (slices workload config .roundRobin) := by
  have decides : Scheduler.ofPolicy .roundRobin config = .ok (.roundRobin quantum) := by
    simp [Scheduler.ofPolicy, required, Except.map]
  have positive := Config.requiredQuantum_pos required
  obtain ⟨last, woken, conserving, _, finished, reports, ⟨told, measured⟩, _, turns⟩ :=
    (Kernel.maintained_turns workload positive).simulate decides
      ⟨⟨rfl, Kernel.initial_measured workload _ positive⟩, by simp [enteredIn],
        Kernel.initial_turns workload quantum⟩ ran
  have settled := conserving.orderly.settled
  have resting := measured.toCovers.idle (settled.current_of_allFinished finished)
  have nobody := settled.ids_of_allFinished finished
  have allCome : last.machine.awake workload = arrivals workload := by
    rw [conserving.awake_eq, ← conserving.split, List.append_nil]
  rw [allCome] at turns
  have isEntered := turns.entered_eq
  have record : last.machine.trace = schedule.trace := reports.record.symm
  have begun := told.trans (Slicing.begun_of_idle resting)
  have queued := turns.queued
  have prompt := turns.prompt
  rw [Slicing.begun_of_idle resting] at queued
  rw [record] at isEntered
  rw [nobody, isEntered, List.append_nil, List.map_map] at queued
  rw [isEntered] at prompt
  have covers := measured.covers
  rw [Slicing.close_of_idle resting, record] at covers
  have divided : ∀ job ∈ Job.ofWorkload workload,
      lengths (slices workload config .roundRobin) job.id = portions quantum job.service := by
    intro job submitted
    obtain ⟨found, present, _, left, finished_iff⟩ := settled.toBooked.leftBefore_eq submitted
    have isFinished := settled.allFinished_iff.mp finished found (Machine.mem_jobs_of_job? present)
    have whole := measured.divided job submitted
    rw [Slicing.Measured.latest_of_idle resting, ← settled.elapsed, left,
      finished_iff.mp isFinished, portions_zero, List.append_nil] at whole
    exact whole
  refine ⟨begun, covers, measured.inOrder, record ▸ measured.lasts, divided, ?_, queued.symm, ?_,
    isEntered ▸ turns.since⟩
  · intro job submitted
    rw [begun, List.countP_map, ← length_portions positive, ← divided job submitted,
      length_lengths]
    rfl
  · intro index slice isSlice
    obtain ⟨entry, isEntry, start⟩ := prompt.of_idle resting isSlice
    have inRange := (List.getElem?_eq_some_iff.mp isSlice).choose
    have place := List.length_take_of_le (Nat.le_of_lt inRange)
    exact ⟨entry, place ▸ isEntry, start⟩

theorem Config.requiredQuantum_of_simulate {quantum : UInt64}
    (ran : simulate workload config .roundRobin = .ok schedule)
    (given : config.quantum = some quantum) : config.requiredQuantum = .ok quantum.toNat := by
  obtain ⟨scheduler, decides⟩ := exists_scheduler_of_simulate ran
  exact requiredQuantum_of_ofPolicy rfl decides given

/-- In a run of round robin jobs take turns, in the order in which they enter the queue. -/
theorem simulate_roundRobin_takes_turns {quantum : UInt64}
    (ran : simulate workload config .roundRobin = .ok schedule)
    (given : config.quantum = some quantum) :
    TurnByTurn workload quantum.toNat (Simulation.history workload config .roundRobin)
      schedule.trace (slices workload config .roundRobin) :=
  turnByTurn_of_simulate ran (Config.requiredQuantum_of_simulate ran given)

/-- The second job arrives as the slice of the first one expires and is served before it; the third
one comes to an idle CPU and returns to it at once. -/
theorem simulate_roundRobin_takes_turns_at_expiry :
    ∃ schedule,
      simulate [⟨0, 3, 0⟩, ⟨2, 2, 0⟩, ⟨7, 3, 0⟩] { quantum := some 2, maxTicks := 20 }
        .roundRobin = .ok schedule ∧
      schedule.timeline = [some 1, some 1, some 2, some 2, some 1, none, none, some 3, some 3,
        some 3] ∧
      entries [⟨0, 3, 0⟩, ⟨2, 2, 0⟩, ⟨7, 3, 0⟩] 2 schedule.trace
          (slices [⟨0, 3, 0⟩, ⟨2, 2, 0⟩, ⟨7, 3, 0⟩] { quantum := some 2, maxTicks := 20 }
            .roundRobin) =
        [⟨0, 1, false⟩, ⟨2, 2, false⟩, ⟨2, 1, true⟩, ⟨7, 3, false⟩, ⟨9, 3, true⟩] ∧
      TurnByTurn [⟨0, 3, 0⟩, ⟨2, 2, 0⟩, ⟨7, 3, 0⟩] 2
        (Simulation.history [⟨0, 3, 0⟩, ⟨2, 2, 0⟩, ⟨7, 3, 0⟩]
          { quantum := some 2, maxTicks := 20 } .roundRobin)
        schedule.trace (slices [⟨0, 3, 0⟩, ⟨2, 2, 0⟩, ⟨7, 3, 0⟩]
          { quantum := some 2, maxTicks := 20 } .roundRobin) := by
  have runs : (simulate [⟨0, 3, 0⟩, ⟨2, 2, 0⟩, ⟨7, 3, 0⟩] { quantum := some 2, maxTicks := 20 }
      .roundRobin).toOption.map (fun schedule =>
        (schedule.timeline, entries [⟨0, 3, 0⟩, ⟨2, 2, 0⟩, ⟨7, 3, 0⟩] 2 schedule.trace
          (slices [⟨0, 3, 0⟩, ⟨2, 2, 0⟩, ⟨7, 3, 0⟩] { quantum := some 2, maxTicks := 20 }
            .roundRobin))) =
      some ([some 1, some 1, some 2, some 2, some 1, none, none, some 3, some 3, some 3],
        [⟨0, 1, false⟩, ⟨2, 2, false⟩, ⟨2, 1, true⟩, ⟨7, 3, false⟩, ⟨9, 3, true⟩]) := by
    decide +kernel
  obtain ⟨schedule, isSchedule, told⟩ := Option.map_eq_some_iff.mp runs
  simp only [Prod.mk.injEq] at told
  have ran := toOption_eq_some_iff.mp isSchedule
  exact ⟨schedule, ran, told.1, told.2, simulate_roundRobin_takes_turns ran rfl⟩

end CpuScheduling
