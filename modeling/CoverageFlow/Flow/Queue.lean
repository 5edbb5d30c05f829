import CoverageFlow.Flow.Index

/-!
# Queues of blocks

A first-in first-out queue of blocks that ignores a block which waits already. It keeps a mark
for every waiting block, so that a push need not search the queue.

## Main definitions

* `MarkedQueue`: the queue, and `MarkedQueue.toList`: the waiting blocks, first one first.
* `MarkedQueue.push`, `MarkedQueue.pop?`: the operations.

## Main results

* `MarkedQueue.toList_push`, `MarkedQueue.toList_of_pop?`: what the operations do to the list.
-/

namespace CoverageFlow

variable {n : Nat}

/-- A queue of blocks. -/
structure MarkedQueue (n : Nat) where
  /-- The blocks to be popped first. -/
  front : List (Fin n)
  /-- The blocks pushed last, the latest one first. -/
  back : List (Fin n)
  /-- Which blocks wait. -/
  marked : Vector Bool n

namespace MarkedQueue

/-- The queue in which no block waits. -/
def empty : MarkedQueue n where
  front := []
  back := []
  marked := .replicate n false

/-- The waiting blocks in their order. -/
def toList (q : MarkedQueue n) : List (Fin n) :=
  q.front ++ q.back.reverse

/-- The number of waiting blocks. -/
def size (q : MarkedQueue n) : Nat :=
  q.front.length + q.back.length

/-- Lets a block wait, unless it waits already. -/
def push (q : MarkedQueue n) (b : Fin n) : MarkedQueue n :=
  if q.marked.get b then q
  else { q with back := b :: q.back, marked := q.marked.set b true b.isLt }

/-- The first waiting block, and the queue without it. -/
def pop? (q : MarkedQueue n) : Option (Fin n × MarkedQueue n) :=
  match q.front with
  | b :: front => some (b, { q with front := front, marked := q.marked.set b false b.isLt })
  | [] =>
    match q.back.reverse with
    | b :: front => some (b, { front := front, back := [], marked := q.marked.set b false b.isLt })
    | [] => none

/-! ### The list of waiting blocks -/

theorem length_toList (q : MarkedQueue n) : q.toList.length = q.size := by
  simp [toList, size]

@[simp] theorem toList_empty : (empty : MarkedQueue n).toList = [] := rfl

@[simp] theorem size_empty : (empty : MarkedQueue n).size = 0 := rfl

theorem toList_push (q : MarkedQueue n) (b : Fin n) :
    (q.push b).toList = if q.marked.get b then q.toList else q.toList ++ [b] := by
  unfold push
  split <;> simp [toList]

theorem marked_push (q : MarkedQueue n) (b : Fin n) :
    (q.push b).marked = q.marked.set b true b.isLt := by
  unfold push
  split
  · next h =>
    rw [get_eq_getElem] at h
    rw [← h, Vector.set_getElem_self]
  · rfl

theorem toList_of_pop? {q q' : MarkedQueue n} {b : Fin n} (h : q.pop? = some (b, q')) :
    q.toList = b :: q'.toList := by
  unfold pop? at h
  split at h
  · next hf => cases h; simp [toList, hf]
  · next hf =>
    split at h
    · next hb => cases h; simp [toList, hf, hb]
    · cases h

theorem marked_of_pop? {q q' : MarkedQueue n} {b : Fin n} (h : q.pop? = some (b, q')) :
    q'.marked = q.marked.set b false b.isLt := by
  unfold pop? at h
  split at h
  · cases h; rfl
  · split at h <;> cases h
    rfl

theorem pop?_eq_none_iff {q : MarkedQueue n} : q.pop? = none ↔ q.toList = [] := by
  unfold pop? toList
  split
  · next hf => simp [hf]
  · next hf =>
    split
    · next hb => simp [hb]
    · next hb => simp [hf, hb]

/-! ### The number of waiting blocks -/

theorem size_push_le (q : MarkedQueue n) (b : Fin n) : (q.push b).size ≤ q.size + 1 := by
  simp only [← length_toList, toList_push]
  split <;> simp

theorem size_of_pop? {q q' : MarkedQueue n} {b : Fin n} (h : q.pop? = some (b, q')) :
    q.size = q'.size + 1 := by
  simp only [← length_toList, toList_of_pop? h, List.length_cons]

end MarkedQueue

end CoverageFlow
