import CpuScheduling.ReadyQueue
import Mathlib.Data.Finmap

/-!
What may be asked of a queue, and what those who ask know of it.  Of a queue in order of
admission they know the ids in the order in which they were pushed, of a ranked one the latest
rank of each id; how a queue keeps them is nowhere told.
-/

namespace CpuScheduling

inductive QueueCall where
  | push (id : Nat) (rank : Rank)
  | pop
  | peek
  | rerank (id : Nat) (rank : Rank)
  | contains (id : Nat)
  | ids
  | size
  deriving DecidableEq

inductive QueueAnswer where
  | done
  | picked (id : Option Nat)
  | whether (yes : Bool)
  | listed (ids : List Nat)
  | counted (number : Nat)
  deriving DecidableEq

namespace ReadyQueue

def answer (queue : ReadyQueue) : QueueCall → Checked (QueueAnswer × ReadyQueue)
  | .push id rank => do return (.done, ← queue.push id rank)
  | .pop => .ok (.picked queue.pop.1, queue.pop.2)
  | .peek => .ok (.picked queue.peek, queue)
  | .rerank id rank => .ok (.whether (queue.rerank id rank).1, (queue.rerank id rank).2)
  | .contains id => .ok (.whether (queue.contains id), queue)
  | .ids => .ok (.listed queue.ids, queue)
  | .size => .ok (.counted queue.size, queue)

def answerAll : ReadyQueue → List QueueCall → Checked (List QueueAnswer × ReadyQueue)
  | queue, [] => .ok ([], queue)
  | queue, call :: rest => do
      let (answer, next) ← queue.answer call
      let (answers, last) ← next.answerAll rest
      return (answer :: answers, last)

end ReadyQueue

/-- What is known of a queue from outside. -/
inductive Waitlist where
  /-- The ids in the order in which they were pushed. -/
  | admitted (ids : List Nat)
  /-- The latest rank of each id. -/
  | ranked (latest : Finmap fun _ : Nat => Rank)

namespace Waitlist

def Holds (id : Nat) : Waitlist → Prop
  | admitted ids => id ∈ ids
  | ranked latest => id ∈ latest

/-- The id that is picked: the first one, or the one of the greatest rank. -/
def IsNext (id : Nat) : Waitlist → Prop
  | admitted ids => ids.head? = some id
  | ranked latest => ∃ rank, latest.lookup id = some rank ∧
      ∀ other lower, other ≠ id → latest.lookup other = some lower → lower < rank

def push (id : Nat) (rank : Rank) : Waitlist → Waitlist
  | admitted ids => admitted (ids ++ [id])
  | ranked latest => ranked (latest.insert id rank)

def drop (id : Nat) : Waitlist → Waitlist
  | admitted ids => admitted (ids.erase id)
  | ranked latest => ranked (latest.erase id)

/-- An id that is not there gets no rank, and where ids are in order of admission none does. -/
def rerank (id : Nat) (rank : Rank) : Waitlist → Waitlist
  | admitted ids => admitted ids
  | ranked latest => ranked (if id ∈ latest then latest.insert id rank else latest)

/-- The ids that are picked one after the other until nobody is left. -/
inductive Drains : Waitlist → List Nat → Prop where
  | nobody {list : Waitlist} (empty : ∀ id, ¬list.Holds id) : Drains list []
  | pick {list : Waitlist} {id : Nat} {rest : List Nat} (next : list.IsNext id)
      (drains : Drains (list.drop id) rest) : Drains list (id :: rest)

/-- The answer to a call, and what is known of the queue behind it. -/
inductive Answers : Waitlist → QueueCall → QueueAnswer → Waitlist → Prop where
  | push (list : Waitlist) (id : Nat) (rank : Rank) :
      Answers list (.push id rank) .done (list.push id rank)
  | pop {list : Waitlist} {id : Nat} (next : list.IsNext id) :
      Answers list .pop (.picked (some id)) (list.drop id)
  | popNobody {list : Waitlist} (empty : ∀ id, ¬list.Holds id) :
      Answers list .pop (.picked none) list
  | peek {list : Waitlist} {id : Nat} (next : list.IsNext id) :
      Answers list .peek (.picked (some id)) list
  | peekNobody {list : Waitlist} (empty : ∀ id, ¬list.Holds id) :
      Answers list .peek (.picked none) list
  | rerank {list : Waitlist} {id : Nat} (rank : Rank) {yes : Bool}
      (queued : yes = true ↔ list.Holds id) :
      Answers list (.rerank id rank) (.whether yes) (list.rerank id rank)
  | contains {list : Waitlist} {id : Nat} {yes : Bool} (queued : yes = true ↔ list.Holds id) :
      Answers list (.contains id) (.whether yes) list
  | ids {list : Waitlist} {ids : List Nat} (drains : list.Drains ids) :
      Answers list .ids (.listed ids) list
  | size {list : Waitlist} {ids : List Nat} (drains : list.Drains ids) :
      Answers list .size (.counted ids.length) list

variable {list next other : Waitlist} {call : QueueCall} {calls : List QueueCall}

theorem IsNext.holds {id : Nat} (isNext : list.IsNext id) : list.Holds id := by
  cases list with
  | admitted ids => exact List.mem_of_head? isNext
  | ranked latest =>
      obtain ⟨rank, isRank, -⟩ := isNext
      exact Finmap.mem_of_lookup_eq_some isRank

theorem IsNext.unique {id another : Nat} (isNext : list.IsNext id)
    (alsoNext : list.IsNext another) : id = another := by
  cases list with
  | admitted ids => exact Option.some.inj (isNext.symm.trans alsoNext)
  | ranked latest =>
      obtain ⟨rank, isRank, greatest⟩ := isNext
      obtain ⟨anotherRank, isAnother, greater⟩ := alsoNext
      by_contra different
      exact Rank.lt_asymm (greatest another anotherRank (Ne.symm different) isAnother)
        (greater id rank different isRank)

/-- A call leaves nothing open of what is known behind it. -/
theorem Answers.next_unique {answer answered : QueueAnswer} (first : list.Answers call answer next)
    (second : list.Answers call answered other) : next = other := by
  cases first with
  | pop isNext =>
      cases second with
      | pop alsoNext => rw [isNext.unique alsoNext]
      | popNobody empty => exact absurd isNext.holds (empty _)
  | popNobody empty =>
      cases second with
      | pop isNext => exact absurd isNext.holds (empty _)
      | popNobody => rfl
  | _ => cases second <;> rfl

/-- An id is pushed only while it is not there, and a rank names its id. -/
def Allows (list : Waitlist) : QueueCall → Prop
  | .push id rank => ¬list.Holds id ∧ rank.id = id
  | .rerank id rank => rank.id = id
  | _ => True

def AllowsAll : Waitlist → List QueueCall → Prop
  | _, [] => True
  | list, call :: rest =>
      list.Allows call ∧ ∀ answer next, list.Answers call answer next → next.AllowsAll rest

inductive AnswersAll : Waitlist → List QueueCall → List QueueAnswer → Waitlist → Prop where
  | nil (list : Waitlist) : AnswersAll list [] [] list
  | cons {list next last : Waitlist} {call : QueueCall} {answer : QueueAnswer}
      {calls : List QueueCall} {answers : List QueueAnswer} (first : Answers list call answer next)
      (rest : AnswersAll next calls answers last) :
      AnswersAll list (call :: calls) (answer :: answers) last

end Waitlist

end CpuScheduling
