import CoverageFlow.Flow.Queue
import Mathlib

/-!
# Blocks wait at most once

A queue of blocks ignores a block that waits already, and it tells this from a mark. Both are
right as long as the queue is only changed by its own operations: no block waits twice, and the
marked blocks are those that wait.

## Main definitions

* `MarkedQueue.Valid`: no block waits twice, and the marks tell who waits.

## Main results

* `MarkedQueue.Valid.push`, `MarkedQueue.Valid.of_pop?`: the operations keep this.
* `MarkedQueue.Valid.mem_push`: who waits after a push.
-/

namespace CoverageFlow

variable {n : ℕ}

/-- No block waits twice, and the marks tell who waits. -/
structure MarkedQueue.Valid (q : MarkedQueue n) : Prop where
  nodup : q.toList.Nodup
  marked : ∀ b, q.marked.get b = true ↔ b ∈ q.toList

namespace MarkedQueue

variable {q q' : MarkedQueue n} {b b' : Fin n}

theorem valid_empty : (empty : MarkedQueue n).Valid where
  nodup := List.nodup_nil
  marked b := by
    rw [toList_empty, empty, get_replicate]
    simp

theorem Valid.toList_push_of_mem (hq : q.Valid) (hb : b ∈ q.toList) :
    (q.push b).toList = q.toList := by
  rw [toList_push, if_pos ((hq.marked b).2 hb)]

theorem Valid.toList_push_of_notMem (hq : q.Valid) (hb : b ∉ q.toList) :
    (q.push b).toList = q.toList ++ [b] := by
  rw [toList_push, if_neg fun hmark => hb ((hq.marked b).1 hmark)]

theorem Valid.mem_push (hq : q.Valid) : b' ∈ (q.push b).toList ↔ b' ∈ q.toList ∨ b' = b := by
  by_cases hb : b ∈ q.toList
  · rw [hq.toList_push_of_mem hb]
    exact ⟨.inl, fun h => h.elim id fun he => he ▸ hb⟩
  · rw [hq.toList_push_of_notMem hb, List.mem_append, List.mem_singleton]

theorem Valid.push (hq : q.Valid) (b : Fin n) : (q.push b).Valid where
  nodup := by
    by_cases hb : b ∈ q.toList
    · rw [hq.toList_push_of_mem hb]
      exact hq.nodup
    · rw [hq.toList_push_of_notMem hb]
      exact List.nodup_append_comm.1 (List.nodup_cons.2 ⟨hb, hq.nodup⟩)
  marked b' := by
    rw [marked_push, get_set, hq.mem_push, ← hq.marked b']
    by_cases hb : b = b'
    · simp [hb]
    · simp [hb, Ne.symm hb]

theorem Valid.of_pop? (hq : q.Valid) (h : q.pop? = some (b, q')) : q'.Valid where
  nodup := by
    have := hq.nodup
    rw [toList_of_pop? h] at this
    exact this.of_cons
  marked b' := by
    have hnodup := hq.nodup
    rw [toList_of_pop? h, List.nodup_cons] at hnodup
    rw [marked_of_pop? h, get_set]
    have hb' := hq.marked b'
    rw [toList_of_pop? h, List.mem_cons] at hb'
    by_cases hb : b = b'
    · subst hb
      simpa using hnodup.1
    · rw [if_neg hb, hb']
      simp [Ne.symm hb]

end MarkedQueue

end CoverageFlow
