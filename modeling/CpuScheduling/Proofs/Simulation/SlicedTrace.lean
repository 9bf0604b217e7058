import CpuScheduling.Proofs.Simulation.Slices

/-!
The slices that a history tells are those in the trace: a job holds the CPU in a tick
exactly if the tick lies in one of its slices.
-/

namespace CpuScheduling

def InSlice (slices : List Slice) (id time : Nat) : Prop :=
  ∃ slice ∈ slices, slice.job = id ∧ slice.start ≤ time ∧ time < slice.stop

theorem inSlice_concat {slices : List Slice} {slice : Slice} {id time : Nat} :
    InSlice (slices ++ [slice]) id time ↔
      InSlice slices id time ∨ slice.job = id ∧ slice.start ≤ time ∧ time < slice.stop := by
  simp [InSlice, or_and_right, exists_or]

structure Slicing.Covers (slicing : Slicing) (machine : Machine) : Prop where
  current : slicing.going.map (·.1) = machine.cpu.current
  begun : ∀ id start, slicing.going = some (id, start) → start ≤ machine.now
  past : ∀ slice ∈ slicing.ended, slice.stop ≤ machine.now
  covers : ∀ time id, occupantAt machine.trace time = some id ↔
    InSlice (slicing.close machine.now).ended id time

namespace Slicing

variable {slicing : Slicing} {machine next : Machine}

theorem close_of_idle (idle : slicing.going = none) (stop : Nat) : slicing.close stop = slicing := by
  simp [close, idle]

theorem going_close (slicing : Slicing) (stop : Nat) : (slicing.close stop).going = none := by
  cases going : slicing.going with
  | none => rw [close_of_idle going, going]
  | some slice => rw [close_of_going going]

namespace Covers

theorem of_same (covers : slicing.Covers machine)
    (current : next.cpu.current = machine.cpu.current) (now : next.now = machine.now)
    (record : next.trace = machine.trace) : slicing.Covers next where
  current := current ▸ covers.current
  begun := now ▸ covers.begun
  past := now ▸ covers.past
  covers := by
    rw [now, record]
    exact covers.covers

theorem idle (covers : slicing.Covers machine) (nobody : machine.cpu.current = none) :
    slicing.going = none := by
  simpa [nobody] using covers.current

theorem exists_going {id : Nat} (covers : slicing.Covers machine)
    (current : machine.cpu.current = some id) : ∃ start, slicing.going = some (id, start) := by
  simpa [current] using covers.current

theorem past_close (covers : slicing.Covers machine) :
    ∀ slice ∈ (slicing.close machine.now).ended, slice.stop ≤ machine.now := by
  intro slice member
  cases going : slicing.going with
  | none =>
      rw [close_of_idle going] at member
      exact covers.past slice member
  | some current =>
      rw [close_of_going going] at member
      rcases List.mem_append.mp member with before | last
      · exact covers.past slice before
      · cases List.mem_singleton.mp last
        exact Nat.le_refl _

theorem release (covers : slicing.Covers machine) (nobody : next.cpu.current = none)
    (now : next.now = machine.now) (record : next.trace = machine.trace) :
    (slicing.close machine.now).Covers next := by
  have stopped := slicing.going_close machine.now
  refine ⟨by rw [stopped, nobody, Option.map_none], by simp [stopped], now ▸ covers.past_close, ?_⟩
  rw [close_of_idle stopped, record]
  exact covers.covers

theorem start {id : Nat} (covers : slicing.Covers machine) (nobody : machine.cpu.current = none)
    (current : next.cpu.current = some id) (now : next.now = machine.now)
    (record : next.trace = machine.trace) :
    Covers { slicing with going := some (id, machine.now) } next := by
  refine ⟨current.symm, ?_, now ▸ covers.past, fun time other => ?_⟩
  · intro other start going
    cases going
    exact Nat.le_of_eq now.symm
  · have before := covers.covers time other
    rw [close_of_idle (covers.idle nobody)] at before
    rw [close_of_going rfl, inSlice_concat, record, before, now]
    refine ⟨.inl, ?_⟩
    rintro (ended | ⟨_, notBefore, notAfter⟩)
    · exact ended
    · exact absurd notAfter (Nat.not_lt_of_le notBefore)

theorem tick (covers : slicing.Covers machine) (elapsed : machine.trace.size = machine.now) :
    slicing.Covers { machine.recorded with now := machine.now + 1 } := by
  refine ⟨covers.current, ?_, ?_, fun time id => ?_⟩
  · intro id start going
    exact (covers.begun id start going).trans (Nat.le_succ _)
  · intro slice member
    exact (covers.past slice member).trans (Nat.le_succ _)
  · have before := covers.covers time id
    have notEnded : InSlice slicing.ended id time → time < machine.now := by
      rintro ⟨slice, member, _, _, notAfter⟩
      exact Nat.lt_of_lt_of_le notAfter (covers.past slice member)
    change occupantAt (machine.trace.push ⟨machine.now, machine.cpu.current⟩) time = some id ↔
      InSlice (slicing.close (machine.now + 1)).ended id time
    rw [occupantAt_push, elapsed, ← covers.current]
    cases going : slicing.going with
    | none =>
        rw [close_of_idle going] at before ⊢
        split
        next isNow => exact ⟨nofun, fun ended => by have past := notEnded ended; omega⟩
        next => exact before
    | some slice =>
        have begun := covers.begun slice.1 slice.2 going
        rw [close_of_going going, inSlice_concat] at before ⊢
        split
        next isNow =>
          simp only [Option.map_some, Option.some.injEq]
          constructor
          · intro holds
            exact .inr ⟨holds, isNow ▸ begun, isNow ▸ Nat.lt_succ_self _⟩
          · rintro (ended | ⟨holds, _⟩)
            · have past := notEnded ended
              omega
            · exact holds
        next notNow =>
          have sameEnd : time < machine.now ↔ time < machine.now + 1 := by omega
          exact before.trans (or_congr_right (and_congr_right' (and_congr_right' sameEnd)))

theorem rest (covers : slicing.Covers machine) (nobody : machine.cpu.current = none) (ticks : Nat) :
    slicing.Covers (machine.rested ticks) := by
  have resting := covers.idle nobody
  refine ⟨covers.current, by simp [resting], ?_, fun time id => ?_⟩
  · intro slice member
    exact (covers.past slice member).trans (Nat.le_add_right _ _)
  · have before := covers.covers time id
    rw [close_of_idle resting] at before ⊢
    rw [← before, Machine.rested, occupantAt_append_idleTrace]

section Phases

variable {workload : List Spec} {scheduler : Scheduler}

theorem requeueExpired (covers : slicing.Covers machine)
    (requeues : scheduler.requeueExpired machine = .ok next) :
    ∃ news, next.events = machine.events ++ news ∧
      ((stamped machine.now news).foldl after slicing).Covers next := by
  rcases Scheduler.requeueExpired_ok requeues with
    ⟨_, rfl⟩ | ⟨id, job, ready, _, _, _, _, _, rfl⟩
  · exact ⟨[], (List.append_nil _).symm, covers⟩
  · exact ⟨[.sliceExpired id], rfl, covers.release rfl rfl rfl⟩

theorem fillCpu (covers : slicing.Covers machine) (nobody : machine.cpu.current = none)
    (fills : scheduler.fillCpu machine = .ok next) :
    ∃ news, next.events = machine.events ++ news ∧
      ((stamped machine.now news).foldl after slicing).Covers next := by
  rcases Scheduler.fillCpu_ok fills with ⟨_, rfl⟩ | ⟨id, _, _, _, _, _, _, rfl⟩
  · exact ⟨[], (List.append_nil _).symm, covers⟩
  · exact ⟨[.dispatch id machine.cpu.last (machine.switchesTo id)], rfl, covers.start nobody rfl rfl rfl⟩

theorem contest {id : Nat} (covers : slicing.Covers machine)
    (current : machine.cpu.current = some id)
    (contests : scheduler.contest machine id = .ok next) :
    ∃ news, next.events = machine.events ++ news ∧
      ((stamped machine.now news).foldl after slicing).Covers next := by
  rcases Scheduler.contest_ok current contests with
    ⟨_, rfl⟩ | ⟨job, candidateId, candidate, _, _, _, rest⟩
  · exact ⟨[], (List.append_nil _).symm, covers⟩
  · rcases rest with ⟨_, rfl⟩ | ⟨_, ready, started, _, _, _, _, _, _, rfl⟩
    · exact ⟨[], (List.append_nil _).symm, covers⟩
    · have released : (slicing.close machine.now).Covers
          { machine.pop.2.released id job (.preempt id candidateId) with ready := ready } :=
        covers.release rfl rfl rfl
      exact ⟨[.preempt id candidateId,
        .dispatch candidateId machine.cpu.last (machine.switchesTo candidateId)],
        List.append_assoc machine.events _ _, released.start rfl rfl rfl rfl⟩

theorem dispatch (covers : slicing.Covers machine)
    (dispatches : scheduler.dispatch machine = .ok next) :
    ∃ news, next.events = machine.events ++ news ∧
      ((stamped machine.now news).foldl after slicing).Covers next := by
  rcases Scheduler.dispatch_ok dispatches with ⟨nobody, fills⟩ | ⟨id, current, rfl | contests⟩
  · exact covers.fillCpu nobody fills
  · exact ⟨[], (List.append_nil _).symm, covers⟩
  · exact covers.contest current contests

theorem work {worked closed : Machine} {work : Work} (covers : slicing.Covers machine)
    (elapsed : machine.trace.size = machine.now)
    (works : machine.recordTrace.runCurrent = .ok (work, worked))
    (closes : scheduler.closeTick work worked = .ok closed)
    (isNext : next = (closed.advance 1).drainEvents.2) (later : next.now = machine.now + 1) :
    ∃ news, closed.events = machine.events ++ news ∧
      ((stamped machine.now news).foldl after slicing).Covers next := by
  have ticked := covers.tick elapsed
  obtain ⟨jobs, ready, expired, rfl⟩ := Scheduler.closeTick_same closes
  have current : next.cpu.current = worked.cpu.current := isNext ▸ rfl
  have record : next.trace = worked.trace := isNext ▸ rfl
  rcases Machine.work_ok works with
    ⟨nobody, _, rfl⟩ | ⟨id, _, _, _, ⟨_, _, _, rfl⟩ | ⟨_, _, _, _, rfl⟩⟩
  · exact ⟨[.cpuIdle 1], rfl, ticked.of_same current later record⟩
  · exact ⟨[], (List.append_nil _).symm, ticked.of_same current later record⟩
  · exact ⟨[.complete id (machine.now + 1)], rfl, ticked.release current later record⟩

end Phases

end Covers

end Slicing

theorem Kernel.maintained_covers (workload : List Spec) (scheduler : Scheduler) :
    Maintained workload scheduler fun history kernel =>
      (Slicing.ofHistory history).Covers kernel.machine where
  wake := by
    intro history kernel next woken job awaited _ _ _ wakes covers
    obtain ⟨_, _, _, _, _, _, rfl⟩ := wake_ok wakes
    rw [Slicing.ofHistory_append]
    exact covers.of_same rfl rfl rfl
  tick := by
    intro history kernel woken awaited requeued started work worked closed news
      conserving _ _ phases isNews _ change covers
    have requeueNow : requeued.now = kernel.machine.now := phases.requeue.now
    have startNow : started.now = kernel.machine.now := phases.start.now
    have elapsed : started.trace.size = started.now := by
      rw [phases.start.record, startNow, conserving.orderly.settled.elapsed]
    obtain ⟨expired, events, coversRequeued⟩ := covers.requeueExpired phases.requeues
    obtain ⟨dispatched, moreEvents, coversStarted⟩ := coversRequeued.dispatch phases.dispatches
    obtain ⟨ended, allEvents, coversNext⟩ :=
      coversStarted.work elapsed phases.works phases.closes rfl
        (by rw [startNow]; exact change.now)
    have whole : kernel.machine.events ++ expired ++ dispatched ++ ended =
        kernel.machine.events ++ news := by
      rw [← events, ← moreEvents, ← allEvents, isNews]
    rw [Slicing.ofHistory_phases whole]
    rw [requeueNow, startNow] at coversNext
    exact coversNext
  rest := by
    intro history kernel woken awaited ticks time _ _ atRest _ covers
    rw [Slicing.ofHistory_append]
    exact covers.rest atRest.idle ticks

variable {workload : List Spec} {config : Config} {policy : Policy} {schedule : Schedule}

/-- A job holds the CPU in the ticks of its slices. -/
theorem occupantAt_iff_inSlice (ran : simulate workload config policy = .ok schedule)
    (time id : Nat) :
    occupantAt schedule.trace time = some id ↔ InSlice (slices workload config policy) id time := by
  obtain ⟨scheduler, decides⟩ := exists_scheduler_of_simulate ran
  obtain ⟨last, woken, conserving, _, finished, reports, covers⟩ :=
    (Kernel.maintained_covers workload scheduler).simulate decides
      ⟨rfl, by simp [Slicing.ofHistory], by simp [Slicing.ofHistory], by
        simp [Slicing.ofHistory, Slicing.close, InSlice, Kernel.initial, Machine.ofWorkload,
          occupantAt]⟩ ran
  have stopped := covers.idle (conserving.orderly.settled.current_of_allFinished finished)
  have covered := covers.covers time id
  rw [Slicing.close_of_idle stopped] at covered
  rw [reports.record]
  exact covered

end CpuScheduling
