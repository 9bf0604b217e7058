import CpuScheduling.Proofs.Queue.Heap
import CpuScheduling.Proofs.Queue.Waitlist

/-!
A queue answers as what is known of it.  A heap in which each job is queued once and under a rank
of its own is a finite map from ids to ranks: no two ranks in it are the same, so the order in
which jobs leave it is the order in which it lists them.
-/

namespace CpuScheduling

/-- Lists of the same values are put in the same order where no two of them tie. -/
theorem sortByInsertion_eq_of_perm {Alpha : Type} {precedes : Alpha → Alpha → Bool}
    {values others : List Alpha}
    (total : ∀ first second, precedes first second ∨ precedes second first)
    (transitive : ∀ first second third,
      precedes first second → precedes second third → precedes first third)
    (untied : ∀ first ∈ values, ∀ second ∈ values,
      precedes first second → precedes second first → first = second)
    (same : values.Perm others) :
    sortByInsertion precedes values = sortByInsertion precedes others := by
  apply List.Perm.eq_of_pairwise
  · intro first second isFirst isSecond early late
    rw [mem_sortByInsertion] at isFirst isSecond
    exact untied first isFirst second (same.mem_iff.mpr isSecond) early late
  · exact pairwise_sortByInsertion total transitive values
  · exact pairwise_sortByInsertion total transitive others
  · exact (sortByInsertion_perm precedes values).trans
      (same.trans (sortByInsertion_perm precedes others).symm)

namespace RankedHeap

variable {heap : RankedHeap} {id : Nat} {rank : Rank}

def latest (heap : RankedHeap) : Finmap fun _ : Nat => Rank :=
  (heap.entries.toList.map fun entry => (⟨entry.id, entry.rank⟩ : Sigma fun _ => Rank)).toFinmap

structure Proper (heap : RankedHeap) : Prop where
  nodup : heap.ids.Nodup
  named : ∀ entry ∈ heap.entries, entry.rank.id = entry.id

theorem proper_empty : empty.Proper where
  nodup := List.nodup_nil
  named := by simp [empty]

theorem mem_latest : id ∈ heap.latest ↔ id ∈ heap.ids := by
  rw [latest, Finmap.mem_list_toFinmap, heap.ids_perm.mem_iff, members]
  simp only [List.mem_map, Sigma.mk.injEq, heq_eq_eq]
  constructor
  · rintro ⟨_, entry, member, named, _⟩
    exact ⟨entry, member, named⟩
  · rintro ⟨entry, member, named⟩
    exact ⟨_, entry, member, named, rfl⟩

theorem lookup_latest (nodup : heap.ids.Nodup) :
    heap.latest.lookup id = some rank ↔ (⟨id, rank⟩ : Ranked) ∈ heap.entries := by
  have once := heap.ids_perm.nodup_iff.mp nodup
  rw [latest, Finmap.dlookup_list_toFinmap, ← Option.mem_def, List.mem_dlookup_iff]
  · simp only [List.mem_map, Sigma.mk.injEq, heq_eq_eq, Array.mem_toList_iff]
    constructor
    · rintro ⟨⟨_, _⟩, member, rfl, rfl⟩
      exact member
    · intro member
      exact ⟨_, member, rfl, rfl⟩
  · simpa [List.NodupKeys, List.keys, Function.comp_def, members] using once

theorem latest_eq {map : Finmap fun _ : Nat => Rank} (nodup : heap.ids.Nodup)
    (same : ∀ id rank, (⟨id, rank⟩ : Ranked) ∈ heap.entries ↔ map.lookup id = some rank) :
    heap.latest = map := by
  apply Finmap.ext_lookup
  intro id
  apply Option.ext
  intro rank
  rw [lookup_latest nodup, same]

theorem latest_eq_insert {later : RankedHeap} (nodup : heap.ids.Nodup)
    (laterNodup : later.ids.Nodup)
    (entries : ∀ other, other ∈ later.entries ↔
      other = ⟨id, rank⟩ ∨ other ∈ heap.entries ∧ other.id ≠ id) :
    later.latest = heap.latest.insert id rank := by
  apply latest_eq laterNodup
  intro other otherRank
  rw [entries]
  by_cases same : other = id
  · subst same
    rw [Finmap.lookup_insert]
    simp [eq_comm]
  · rw [Finmap.lookup_insert_of_ne _ same, lookup_latest nodup]
    simp [same]

namespace Proper

variable (proper : heap.Proper)

include proper

theorem insert (absent : id ∉ heap.ids) (own : rank.id = id) :
    (heap.insert ⟨id, rank⟩).Proper where
  nodup := (heap.ids_insert_perm ⟨id, rank⟩).nodup_iff.mpr
    (List.nodup_cons.mpr ⟨absent, proper.nodup⟩)
  named entry member := by
    rcases mem_insert.mp member with before | rfl
    · exact proper.named entry before
    · exact own

theorem tail : heap.tail.Proper where
  nodup := (heap.ids_tail_perm.nodup_iff).mpr proper.nodup.tail
  named entry member := proper.named entry (mem_of_mem_tail member)

theorem replace {place : Fin heap.entries.size} (found : heap.place? id = some place)
    (own : rank.id = id) : (heap.replace place ⟨id, rank⟩).Proper where
  nodup := (heap.ids_replace_perm (id_of_place? found).symm).nodup_iff.mpr proper.nodup
  named entry member := by
    rcases (mem_replace proper.nodup found).mp member with rfl | ⟨before, _⟩
    · exact own
    · exact proper.named entry before

theorem eq_of_rank_eq {first second : Ranked} (isFirst : first ∈ heap.entries)
    (isSecond : second ∈ heap.entries) (same : first.rank = second.rank) : first = second := by
  have names := congrArg Rank.id same
  rw [proper.named first isFirst, proper.named second isSecond] at names
  cases first
  cases second
  cases names
  cases same
  rfl

theorem ids_tail : heap.tail.ids = heap.ids.tail := by
  have left := BinaryHeap.dropFirst_perm Ranked.precedes heap.entries
  have sorts : sortByInsertion Ranked.precedes heap.tail.entries.toList =
      sortByInsertion Ranked.precedes heap.entries.toList.tail := by
    apply sortByInsertion_eq_of_perm Ranked.precedes_total Ranked.precedes_trans _ left
    intro first isFirst second isSecond early late
    rw [Array.mem_toList_iff] at isFirst isSecond
    rw [Ranked.precedes_iff] at early late
    exact proper.tail.eq_of_rank_eq isFirst isSecond (Rank.eq_of_not_lt_of_not_lt early late)
  unfold ids at sorts ⊢
  rw [sorts]
  cases layout : heap.entries.toList with
  | nil => rfl
  | cons first rest =>
      rw [sortByInsertion_cons_of_precedes (first_precedes layout)]
      rfl

theorem latest_insert (absent : id ∉ heap.ids) (own : rank.id = id) :
    (heap.insert ⟨id, rank⟩).latest = heap.latest.insert id rank := by
  apply latest_eq_insert proper.nodup (proper.insert absent own).nodup
  intro other
  rw [mem_insert, or_comm]
  refine or_congr_right ⟨fun member => ⟨member, ?_⟩, And.left⟩
  rintro rfl
  exact absent (mem_ids member)

theorem latest_replace {place : Fin heap.entries.size} (found : heap.place? id = some place)
    (own : rank.id = id) : (heap.replace place ⟨id, rank⟩).latest = heap.latest.insert id rank :=
  latest_eq_insert proper.nodup (proper.replace found own).nodup
    fun _ => mem_replace proper.nodup found

theorem latest_tail (picked : heap.first? = some id) :
    heap.tail.latest = heap.latest.erase id := by
  apply latest_eq proper.tail.nodup
  intro other otherRank
  rw [mem_tail proper.nodup picked]
  by_cases same : other = id
  · subst same
    rw [Finmap.lookup_erase]
    simp
  · rw [Finmap.lookup_erase_ne same, lookup_latest proper.nodup]
    simp [same]

theorem isNext (picked : heap.first? = some id) : (Waitlist.ranked heap.latest).IsNext id := by
  obtain ⟨entry, member, rfl, greatest⟩ := first?_rank picked
  refine ⟨entry.rank, (lookup_latest proper.nodup).mpr member, ?_⟩
  intro other lower different isLower
  rw [lookup_latest proper.nodup] at isLower
  by_contra notLower
  have same := Rank.eq_of_not_lt_of_not_lt notLower (greatest _ isLower)
  exact different (congrArg Ranked.id (proper.eq_of_rank_eq isLower member same))

end Proper

end RankedHeap

namespace ReadyQueue

variable {queue start : ReadyQueue} {id : Nat}

def waitlist : ReadyQueue → Waitlist
  | fifo waiting => .admitted waiting
  | ranked heap => .ranked heap.latest

def Proper : ReadyQueue → Prop
  | fifo _ => True
  | ranked heap => heap.Proper

theorem holds_waitlist : queue.waitlist.Holds id ↔ id ∈ queue.ids := by
  cases queue with
  | fifo waiting => exact Iff.rfl
  | ranked heap => exact RankedHeap.mem_latest

theorem not_holds_waitlist (empty : queue.ids = []) : ¬queue.waitlist.Holds id := by
  rw [holds_waitlist, empty]
  exact List.not_mem_nil

namespace Proper

variable (proper : queue.Proper)

include proper

theorem isNext (picked : queue.peek = some id) : queue.waitlist.IsNext id := by
  cases queue with
  | fifo waiting => exact picked
  | ranked heap => exact RankedHeap.Proper.isNext proper picked

theorem tail : queue.tail.Proper := by
  cases queue with
  | fifo waiting => trivial
  | ranked heap => exact RankedHeap.Proper.tail proper

theorem ids_tail : queue.tail.ids = queue.ids.tail := by
  cases queue with
  | fifo waiting => rfl
  | ranked heap => exact RankedHeap.Proper.ids_tail proper

theorem waitlist_tail (picked : queue.peek = some id) :
    queue.tail.waitlist = queue.waitlist.drop id := by
  cases queue with
  | fifo waiting =>
      obtain ⟨rest, rfl⟩ := List.head?_eq_some_iff.mp picked
      simp [waitlist, ReadyQueue.tail, Waitlist.drop]
  | ranked heap => exact congrArg Waitlist.ranked (RankedHeap.Proper.latest_tail proper picked)

theorem drains : queue.waitlist.Drains queue.ids := by
  generalize listed : queue.ids = ids
  induction ids generalizing queue with
  | nil => exact .nobody fun id => not_holds_waitlist listed
  | cons id rest inductionHypothesis =>
      have picked : queue.peek = some id := by rw [← head?_ids, listed, List.head?_cons]
      have left : queue.tail.ids = rest := by rw [proper.ids_tail, listed, List.tail_cons]
      apply Waitlist.Drains.pick (proper.isNext picked)
      rw [← proper.waitlist_tail picked]
      exact inductionHypothesis proper.tail left

/-- Popping until nobody is left yields the ids that the queue lists. -/
theorem exists_pops : ∃ last, queue.answerAll (List.replicate (queue.ids.length + 1) .pop) =
    .ok (queue.ids.map (fun id => .picked (some id)) ++ [.picked none], last) := by
  generalize listed : queue.ids = ids
  induction ids generalizing queue with
  | nil =>
      have nobody : queue.peek = none := peek_eq_none_iff.mpr listed
      refine ⟨queue.tail, ?_⟩
      simp [answerAll, answer, pop, nobody, bind, Except.bind, pure, Except.pure]
  | cons id rest inductionHypothesis =>
      have picked : queue.peek = some id := by rw [← head?_ids, listed, List.head?_cons]
      have left : queue.tail.ids = rest := by rw [proper.ids_tail, listed, List.tail_cons]
      obtain ⟨last, others⟩ := inductionHypothesis proper.tail left
      refine ⟨last, ?_⟩
      rw [List.length_cons, List.replicate_succ]
      exact bind_eq_ok_iff.mpr ⟨_, rfl, bind_eq_ok_iff.mpr ⟨_, others, by rw [pop, picked]; rfl⟩⟩

theorem push {pushed : ReadyQueue} {rank : Rank} (absent : id ∉ queue.ids) (own : rank.id = id)
    (pushes : queue.push id rank = .ok pushed) :
    pushed.waitlist = queue.waitlist.push id rank ∧ pushed.Proper := by
  cases queue with
  | fifo waiting =>
      cases pushes
      exact ⟨rfl, trivial⟩
  | ranked heap =>
      obtain ⟨_, _, inserted⟩ := bind_eq_ok_iff.mp pushes
      cases inserted
      refine ⟨?_, RankedHeap.Proper.insert proper absent own⟩
      exact congrArg Waitlist.ranked (RankedHeap.Proper.latest_insert proper absent own)

theorem rerank {rank : Rank} (own : rank.id = id) : (queue.rerank id rank).2.Proper := by
  cases queue with
  | fifo waiting => trivial
  | ranked heap =>
      simp only [ReadyQueue.rerank]
      cases found : heap.place? id with
      | none => exact proper
      | some place => exact RankedHeap.Proper.replace proper found own

theorem waitlist_rerank {rank : Rank} (own : rank.id = id) :
    (queue.rerank id rank).2.waitlist = queue.waitlist.rerank id rank := by
  cases queue with
  | fifo waiting => rfl
  | ranked heap =>
      have queued : (heap.place? id).isSome ↔ id ∈ heap.latest := by
        rw [RankedHeap.mem_latest, heap.ids_perm.mem_iff, heap.isSome_place?_iff]
      simp only [ReadyQueue.rerank, waitlist, Waitlist.rerank]
      cases found : heap.place? id with
      | none =>
          rw [found] at queued
          rw [if_neg fun known => Bool.false_ne_true (queued.mpr known)]
      | some place =>
          rw [found] at queued
          rw [if_pos (queued.mp rfl)]
          exact congrArg Waitlist.ranked (RankedHeap.Proper.latest_replace proper found own)

end Proper

/-- An allowed call is answered as what is known of the queue has it. -/
theorem exists_answer (proper : queue.Proper) {call : QueueCall}
    (allowed : queue.waitlist.Allows call) :
    ∃ answer next, queue.answer call = .ok (answer, next) ∧
      queue.waitlist.Answers call answer next.waitlist ∧ next.Proper := by
  cases call with
  | push id rank =>
      obtain ⟨unknown, own⟩ := allowed
      have absent := holds_waitlist.not.mp unknown
      obtain ⟨pushed, pushes⟩ := exists_push absent rank
      obtain ⟨isPushed, properPushed⟩ := proper.push absent own pushes
      refine ⟨.done, pushed, bind_eq_ok_iff.mpr ⟨pushed, pushes, rfl⟩, ?_, properPushed⟩
      rw [isPushed]
      exact .push _ id rank
  | pop =>
      refine ⟨_, _, rfl, ?_, proper.tail⟩
      rw [pop]
      cases picked : queue.peek with
      | none =>
          have empty := peek_eq_none_iff.mp picked
          rw [tail_of_ids_eq_nil empty]
          exact .popNobody fun id => not_holds_waitlist empty
      | some id =>
          rw [proper.waitlist_tail picked]
          exact .pop (proper.isNext picked)
  | peek =>
      refine ⟨_, _, rfl, ?_, proper⟩
      cases picked : queue.peek with
      | none => exact .peekNobody fun id => not_holds_waitlist (peek_eq_none_iff.mp picked)
      | some id => exact .peek (proper.isNext picked)
  | rerank id rank =>
      refine ⟨_, _, rfl, ?_, proper.rerank allowed⟩
      rw [proper.waitlist_rerank allowed, rerank_fst]
      exact .rerank rank (by rw [contains_eq_true_iff, holds_waitlist])
  | contains id =>
      refine ⟨_, _, rfl, .contains ?_, proper⟩
      rw [contains_eq_true_iff, holds_waitlist]
  | ids => exact ⟨_, _, rfl, .ids proper.drains, proper⟩
  | size =>
      refine ⟨_, _, rfl, ?_, proper⟩
      rw [← length_ids]
      exact .size proper.drains

theorem exists_answers {calls : List QueueCall} (proper : queue.Proper)
    (allowed : queue.waitlist.AllowsAll calls) : ∃ answers last,
      queue.answerAll calls = .ok (answers, last) ∧
        queue.waitlist.AnswersAll calls answers last.waitlist ∧ last.Proper := by
  induction calls generalizing queue with
  | nil => exact ⟨[], queue, rfl, .nil _, proper⟩
  | cons call rest inductionHypothesis =>
      obtain ⟨answer, next, answers, first, properNext⟩ := exists_answer proper allowed.1
      obtain ⟨others, last, answersRest, later, properLast⟩ :=
        inductionHypothesis properNext (allowed.2 answer next.waitlist first)
      refine ⟨answer :: others, last, ?_, .cons first later, properLast⟩
      exact bind_eq_ok_iff.mpr ⟨_, answers, bind_eq_ok_iff.mpr ⟨_, answersRest, rfl⟩⟩

def allows (queue : ReadyQueue) : QueueCall → Bool
  | .push id rank => !queue.ids.contains id && rank.id == id
  | .rerank id rank => rank.id == id
  | _ => true

/-- Whether each call is allowed at the time when it is made, as the queue itself finds out. -/
def allowsAll : ReadyQueue → List QueueCall → Bool
  | _, [] => true
  | queue, call :: rest =>
      queue.allows call &&
        match queue.answer call with
        | .ok (_, next) => next.allowsAll rest
        | .error _ => false

theorem allows_eq_true_iff {call : QueueCall} :
    queue.allows call = true ↔ queue.waitlist.Allows call := by
  cases call <;> simp [allows, Waitlist.Allows, holds_waitlist]

theorem allowsAll_eq_true_iff {calls : List QueueCall} (proper : queue.Proper) :
    queue.allowsAll calls = true ↔ queue.waitlist.AllowsAll calls := by
  induction calls generalizing queue with
  | nil => exact ⟨fun _ => trivial, fun _ => rfl⟩
  | cons call rest inductionHypothesis =>
      rw [allowsAll, Bool.and_eq_true, allows_eq_true_iff, Waitlist.AllowsAll]
      refine and_congr_right fun allowed => ?_
      obtain ⟨answer, next, answers, first, properNext⟩ := exists_answer proper allowed
      rw [answers, inductionHypothesis properNext]
      constructor
      · intro allowedRest answered other second
        rwa [← first.next_unique second]
      · exact fun allowedRest => allowedRest answer next.waitlist first

/-- The queues that nobody was pushed into yet, and what is known of them. -/
inductive Opens : ReadyQueue → Waitlist → Prop where
  | fifo : Opens emptyFifo (.admitted [])
  | ranked : Opens emptyRanked (.ranked ∅)

theorem Opens.waitlist_eq {list : Waitlist} (opens : Opens start list) :
    start.waitlist = list ∧ start.Proper := by
  cases opens with
  | fifo => exact ⟨rfl, trivial⟩
  | ranked => exact ⟨rfl, RankedHeap.proper_empty⟩

theorem Opens.allowsAll {list : Waitlist} {calls : List QueueCall} (opens : Opens start list)
    (allowed : start.allowsAll calls = true) : list.AllowsAll calls := by
  obtain ⟨rfl, proper⟩ := opens.waitlist_eq
  exact (allowsAll_eq_true_iff proper).mp allowed

/-- From an empty queue on, allowed calls are answered as what is known of the queue has it.  In
the end the queue lists the ids in the order in which further pops pick them, and its size and
its members are those of this list. -/
theorem answers_as_waitlist {list : Waitlist} {calls : List QueueCall} (opens : Opens start list)
    (allowed : list.AllowsAll calls) : ∃ answers last after,
      start.answerAll calls = .ok (answers, last) ∧ list.AnswersAll calls answers after ∧
        after.Drains last.ids ∧
        (∃ drained, last.answerAll (List.replicate (last.ids.length + 1) .pop) =
          .ok (last.ids.map (fun id => .picked (some id)) ++ [.picked none], drained)) ∧
        last.size = last.ids.length ∧ ∀ id, last.contains id = true ↔ id ∈ last.ids := by
  obtain ⟨rfl, proper⟩ := opens.waitlist_eq
  obtain ⟨answers, last, answered, refines, properLast⟩ := exists_answers proper allowed
  refine ⟨answers, last, last.waitlist, answered, refines, properLast.drains,
    properLast.exists_pops, last.length_ids.symm, fun id => contains_eq_true_iff⟩

/-- Two jobs tie until one of them is ranked anew; a job that is not queued gets no rank. -/
theorem answers_as_waitlist_ranked : ∃ answers last after,
    emptyRanked.answerAll
        [.push 2 ⟨5, 0, 2⟩, .push 1 ⟨5, 0, 1⟩, .push 3 ⟨4, 0, 3⟩, .peek, .rerank 3 ⟨6, 0, 3⟩,
          .rerank 7 ⟨9, 0, 7⟩, .ids, .pop, .contains 3, .size] = .ok (answers, last) ∧
      (Waitlist.ranked ∅).AnswersAll
        [.push 2 ⟨5, 0, 2⟩, .push 1 ⟨5, 0, 1⟩, .push 3 ⟨4, 0, 3⟩, .peek, .rerank 3 ⟨6, 0, 3⟩,
          .rerank 7 ⟨9, 0, 7⟩, .ids, .pop, .contains 3, .size] answers after ∧
      after.Drains last.ids ∧
      (∃ drained, last.answerAll (List.replicate (last.ids.length + 1) .pop) =
        .ok (last.ids.map (fun id => .picked (some id)) ++ [.picked none], drained)) ∧
      last.size = last.ids.length ∧ ∀ id, last.contains id = true ↔ id ∈ last.ids :=
  answers_as_waitlist .ranked (Opens.ranked.allowsAll (by decide +kernel))

end ReadyQueue

end CpuScheduling
