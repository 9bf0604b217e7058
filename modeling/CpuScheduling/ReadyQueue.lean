import CpuScheduling.RankedHeap

/-!
The jobs that wait for the CPU.  A queue is either in order of admission,
where ranks play no part, or in order of rank, the greatest first.  In both, the
first of the listed ids is the job to pick next.

Jobs whose ranks differ leave a queue in the order in which it lists them.  Equal
ranks, which two jobs have only if one is queued under the rank of the other, are
told apart by their places in the heap, and those may change when a job leaves.
-/

namespace CpuScheduling

inductive ReadyQueue where
  | fifo (waiting : List Nat)
  | ranked (heap : RankedHeap)
  deriving DecidableEq

namespace ReadyQueue

def emptyFifo : ReadyQueue :=
  fifo []

def emptyRanked : ReadyQueue :=
  ranked .empty

/-- Every queued id, the job to pick next first. -/
def ids : ReadyQueue → List Nat
  | fifo waiting => waiting
  | ranked heap => heap.ids

def members : ReadyQueue → List Nat
  | fifo waiting => waiting
  | ranked heap => heap.members

def size (queue : ReadyQueue) : Nat :=
  queue.members.length

def isEmpty (queue : ReadyQueue) : Bool :=
  queue.members.isEmpty

def contains (queue : ReadyQueue) (id : Nat) : Bool :=
  queue.members.contains id

/-- A job enters the queue.  A ranked queue holds a job at most once. -/
def push (queue : ReadyQueue) (id : Nat) (rank : Rank) : Checked ReadyQueue :=
  match queue with
  | fifo waiting => .ok (fifo (waiting ++ [id]))
  | ranked heap => do
      ensure (id ∉ heap.members) (.alreadyQueued id)
      return ranked (heap.insert ⟨id, rank⟩)

def peek : ReadyQueue → Option Nat
  | fifo waiting => waiting.head?
  | ranked heap => heap.first?

def tail : ReadyQueue → ReadyQueue
  | fifo waiting => fifo waiting.tail
  | ranked heap => ranked heap.tail

def pop (queue : ReadyQueue) : Option Nat × ReadyQueue :=
  (queue.peek, queue.tail)

/-- Give a queued job a new rank, and tell whether it is queued at all. -/
def rerank (queue : ReadyQueue) (id : Nat) (rank : Rank) : Bool × ReadyQueue :=
  match queue with
  | fifo waiting => (waiting.contains id, fifo waiting)
  | ranked heap =>
      match heap.place? id with
      | some place => (true, ranked (heap.replace place ⟨id, rank⟩))
      | none => (false, ranked heap)

theorem ids_perm (queue : ReadyQueue) : queue.ids.Perm queue.members := by
  cases queue with
  | fifo waiting => exact .refl _
  | ranked heap => exact heap.ids_perm

@[simp]
theorem mem_members {queue : ReadyQueue} {id : Nat} : id ∈ queue.members ↔ id ∈ queue.ids :=
  queue.ids_perm.mem_iff.symm

@[simp]
theorem length_ids (queue : ReadyQueue) : queue.ids.length = queue.size :=
  queue.ids_perm.length_eq

@[simp]
theorem head?_ids (queue : ReadyQueue) : queue.ids.head? = queue.peek := by
  cases queue with
  | fifo waiting => rfl
  | ranked heap => exact heap.head?_ids

@[simp]
theorem contains_eq_true_iff {queue : ReadyQueue} {id : Nat} :
    queue.contains id = true ↔ id ∈ queue.ids := by
  simp [contains]

@[simp]
theorem peek_eq_none_iff {queue : ReadyQueue} : queue.peek = none ↔ queue.ids = [] := by
  rw [← head?_ids, List.head?_eq_none_iff]

theorem isEmpty_eq_true_iff {queue : ReadyQueue} : queue.isEmpty = true ↔ queue.ids = [] := by
  rw [isEmpty, List.isEmpty_iff]
  exact ⟨fun empty => (empty ▸ queue.ids_perm).eq_nil, fun empty =>
    (empty ▸ queue.ids_perm.symm).eq_nil⟩

theorem ids_tail_perm (queue : ReadyQueue) : queue.tail.ids.Perm queue.ids.tail := by
  cases queue with
  | fifo waiting => exact .refl _
  | ranked heap => exact heap.ids_tail_perm

theorem cons_ids_tail_perm {queue : ReadyQueue} {id : Nat} (picked : queue.peek = some id) :
    (id :: queue.tail.ids).Perm queue.ids := by
  obtain ⟨rest, listed⟩ := List.head?_eq_some_iff.mp (queue.head?_ids.trans picked)
  have left := queue.ids_tail_perm
  rw [listed] at left ⊢
  exact left.cons id

theorem mem_ids_of_peek {queue : ReadyQueue} {id : Nat} (picked : queue.peek = some id) :
    id ∈ queue.ids :=
  (cons_ids_tail_perm picked).mem_iff.mp List.mem_cons_self

theorem exists_push {queue : ReadyQueue} {id : Nat} (absent : id ∉ queue.ids) (rank : Rank) :
    ∃ pushed, queue.push id rank = .ok pushed := by
  cases queue with
  | fifo waiting => exact ⟨_, rfl⟩
  | ranked heap =>
      refine ⟨ranked (heap.insert ⟨id, rank⟩), bind_eq_ok_iff.mpr ⟨(), ?_, rfl⟩⟩
      exact ensure_eq_ok_iff.mpr fun member => absent (heap.ids_perm.mem_iff.mpr member)

theorem ids_push_perm {queue pushed : ReadyQueue} {id : Nat} {rank : Rank}
    (entered : queue.push id rank = .ok pushed) : pushed.ids.Perm (id :: queue.ids) := by
  cases queue with
  | fifo waiting =>
      cases entered
      exact List.perm_append_singleton id waiting
  | ranked heap =>
      obtain ⟨_, _, inserted⟩ := bind_eq_ok_iff.mp entered
      cases inserted
      exact heap.ids_insert_perm ⟨id, rank⟩

@[simp]
theorem rerank_fst (queue : ReadyQueue) (id : Nat) (rank : Rank) :
    (queue.rerank id rank).1 = queue.contains id := by
  cases queue with
  | fifo waiting => rfl
  | ranked heap =>
      apply Bool.eq_iff_iff.mpr
      rw [contains, List.contains_iff_mem, members, ← heap.isSome_place?_iff]
      simp only [rerank]
      cases heap.place? id <;> simp

theorem ids_rerank_perm (queue : ReadyQueue) (id : Nat) (rank : Rank) :
    (queue.rerank id rank).2.ids.Perm queue.ids := by
  cases queue with
  | fifo waiting => exact .refl _
  | ranked heap =>
      simp only [rerank]
      cases found : heap.place? id with
      | none => exact .refl _
      | some place => exact heap.ids_replace_perm (heap.id_of_place? found).symm

end ReadyQueue

end CpuScheduling
