import CpuScheduling.Event
import CpuScheduling.Policy
import Mathlib.Algebra.BigOperators.Group.List.Lemmas
import Mathlib.Algebra.GroupWithZero.Nat

/-!
What a log tells.  The events about one job are its course from phase to phase; the
dispatches, each of which names who had the CPU before, are a chain.  All of this is read
off the log alone and grows with it, event by event.
-/

namespace CpuScheduling

namespace Event

/-- The job that an event is about; a preemption is about the job that loses the CPU. -/
def subject? : Event → Option Nat
  | arrival id | dispatch id _ _ | preempt id _ | sliceExpired id | complete id _ => some id
  | cpuIdle _ => none

def dispatched? : Event → Option Nat
  | dispatch id _ _ => some id
  | _ => none

def isSwitch : Event → Bool
  | dispatch _ _ switched => switched
  | _ => false

def idleTicks : Event → Nat
  | cpuIdle ticks => ticks
  | _ => 0

/-- A job loses the CPU before it has completed. -/
def Displaces (id : Nat) (event : Event) : Prop :=
  event = .sliceExpired id ∨ ∃ displacing, event = .preempt id displacing

/-- A dispatch tells who was dispatched before, and whether that was another job. -/
def Names (before : Option Nat) : Event → Prop
  | dispatch id last switched =>
      last = before ∧ (switched = true ↔ ∃ other, before = some other ∧ other ≠ id)
  | _ => True

/-- The policy is one under which such an event occurs. -/
def OccursUnder (policy : Policy) : Event → Prop
  | preempt _ _ => policy = .srtf ∨ policy = .preemptivePriority
  | sliceExpired _ => policy = .roundRobin ∨ policy = .agingRoundRobin
  | _ => True

end Event

def about (id : Nat) (log : List Event) : List Event :=
  log.filter (·.subject? = some id)

def dispatched (log : List Event) : List Nat :=
  log.filterMap (·.dispatched?)

def switchCount (log : List Event) : Nat :=
  log.countP (·.isSwitch)

def idleSum (log : List Event) : Nat :=
  (log.map (·.idleTicks)).sum

variable {id : Nat} {log early late news : List Event} {event : Event}

theorem about_concat_self (subject : event.subject? = some id) :
    about id (log ++ [event]) = about id log ++ [event] := by
  simp [about, subject]

theorem about_concat_of_ne (elsewhere : event.subject? ≠ some id) :
    about id (log ++ [event]) = about id log := by
  simp [about, elsewhere]

theorem getLast?_dispatched_concat (log : List Event) (event : Event) :
    (dispatched (log ++ [event])).getLast? = event.dispatched?.or (dispatched log).getLast? := by
  cases dispatches : event.dispatched? <;> simp [dispatched, dispatches]

theorem switchCount_concat (log : List Event) (event : Event) :
    switchCount (log ++ [event]) = switchCount log + if event.isSwitch then 1 else 0 := by
  simp [switchCount, List.countP_singleton]

theorem idleSum_concat (log : List Event) (event : Event) :
    idleSum (log ++ [event]) = idleSum log + event.idleTicks := by
  simp [idleSum]

theorem append_eq_append_cons (split : log ++ news = early ++ event :: late) :
    (∃ rest, log = early ++ event :: rest ∧ late = rest ++ news) ∨
      ∃ middle, early = log ++ middle ∧ news = middle ++ event :: late := by
  rcases List.append_eq_append_iff.mp split with ⟨middle, isEarly, isNews⟩ | ⟨rest, isLog, isRest⟩
  · exact .inr ⟨middle, isEarly, isNews⟩
  · cases rest with
    | nil => exact .inr ⟨[], by simpa using isLog.symm, isRest.symm⟩
    | cons head rest =>
        obtain ⟨rfl, rfl⟩ := List.cons.inj isRest
        exact .inl ⟨rest, isLog, rfl⟩

/-- Every dispatch names the one before it in the log. -/
def Chained (log : List Event) : Prop :=
  ∀ early event late, log = early ++ event :: late → event.Names (dispatched early).getLast?

theorem Chained.nil : Chained [] :=
  fun early _ _ split => by cases early <;> cases split

theorem Chained.concat (chained : Chained log) (names : event.Names (dispatched log).getLast?) :
    Chained (log ++ [event]) := by
  intro early other late split
  rcases append_eq_append_cons split with ⟨rest, isLog, _⟩ | ⟨middle, rfl, isOther⟩
  · exact chained early other rest isLog
  · obtain ⟨rfl, rfl, _⟩ : middle = [] ∧ event = other ∧ late = [] := by
      cases middle <;> simp_all
    simpa using names

/-- Whoever takes the CPU from another gets it at once. -/
def Answered (log : List Event) : Prop :=
  ∀ early id displacing late, log = early ++ .preempt id displacing :: late →
    ∃ last switched rest, late = .dispatch displacing last switched :: rest

namespace Answered

theorem nil : Answered [] :=
  fun early _ _ _ split => by cases early <;> cases split

theorem append (answered : Answered log) (also : Answered news) : Answered (log ++ news) := by
  intro early id displacing late split
  rcases append_eq_append_cons split with ⟨rest, isLog, rfl⟩ | ⟨middle, _, isNews⟩
  · obtain ⟨last, switched, others, rfl⟩ := answered early id displacing rest isLog
    exact ⟨last, switched, others ++ news, rfl⟩
  · exact also middle id displacing late isNews

theorem of_forall_ne (plain : ∀ id displacing, event ≠ .preempt id displacing) :
    Answered [event] := by
  intro early id displacing late split
  have member : Event.preempt id displacing ∈ [event] := by simp [split]
  exact absurd (List.mem_singleton.mp member).symm (plain id displacing)

theorem preempt (id displacing : Nat) (last : Option Nat) (switched : Bool) :
    Answered [.preempt id displacing, .dispatch displacing last switched] := by
  intro early other takes late split
  cases early with
  | nil =>
      cases split
      exact ⟨last, switched, [], rfl⟩
  | cons head rest =>
      obtain ⟨_, isRest⟩ := List.cons.inj split
      have member : Event.preempt other takes ∈ [Event.dispatch displacing last switched] := by
        simp [isRest]
      cases List.mem_singleton.mp member

end Answered

/-- The events by which a job comes into a phase, and its completion time if it has one. -/
inductive Course (id : Nat) : Phase → Option Nat → List Event → Prop where
  | pending : Course id .pending none []
  | arrival {completion : Option Nat} {story : List Event}
      (before : Course id .pending completion story) :
      Course id .ready completion (story ++ [.arrival id])
  | dispatch {completion : Option Nat} {story : List Event}
      (before : Course id .ready completion story) (last : Option Nat) (switched : Bool) :
      Course id .running completion (story ++ [.dispatch id last switched])
  | displaced {completion : Option Nat} {story : List Event} {loss : Event}
      (before : Course id .running completion story) (displaces : loss.Displaces id) :
      Course id .ready completion (story ++ [loss])
  | complete {completion : Option Nat} {story : List Event}
      (before : Course id .running completion story) (time : Nat) :
      Course id .finished (some time) (story ++ [.complete id time])

/-- A job has arrived and has been dispatched, and whenever it has lost the CPU it has been
dispatched again. -/
inductive Served (id : Nat) : List Event → Prop where
  | first (last : Option Nat) (switched : Bool) :
      Served id [.arrival id, .dispatch id last switched]
  | again {story : List Event} {loss : Event} (before : Served id story)
      (displaces : loss.Displaces id) (last : Option Nat) (switched : Bool) :
      Served id (story ++ [loss, .dispatch id last switched])

def Served.Until (id : Nat) (completion : Option Nat) (story : List Event) : Phase → Prop
  | .pending => story = []
  | .ready => ∀ last switched, Served id (story ++ [.dispatch id last switched])
  | .running => Served id story
  | .finished => ∃ served time, completion = some time ∧ Served id served ∧
      story = served ++ [.complete id time]

theorem Course.served {phase : Phase} {completion : Option Nat} {story : List Event}
    (course : Course id phase completion story) : Served.Until id completion story phase := by
  induction course with
  | pending => rfl
  | arrival before isEmpty =>
      intro last switched
      cases isEmpty
      exact .first last switched
  | dispatch before last switched served => exact served last switched
  | displaced before displaces served =>
      intro last switched
      rw [List.append_assoc]
      exact served.again displaces last switched
  | complete before time served => exact ⟨_, time, rfl, served, rfl⟩

/-- A log tells all that the books of a finished run say: of each job its course, of the CPU
who has had it one after the other, and how often it was switched and for how long it was idle. -/
structure Recorded (policy : Policy) (log : List Event) (jobs : List Job) (switches idle : Nat) :
    Prop where
  courses : ∀ job ∈ jobs, ∃ served time, job.completion = some time ∧ Served job.id served ∧
    about job.id log = served ++ [.complete job.id time]
  chained : Chained log
  switches : switchCount log = switches
  answered : Answered log
  policies : ∀ event ∈ log, event.OccursUnder policy
  idle : idleSum log = idle

end CpuScheduling
