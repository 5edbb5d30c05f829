import CoverageFlow.Proofs.Flow.Completion

/-!
# How many rounds a run takes

A run is two nested loops. Blocks that wait with a count are popped and served until none is left;
then one pass is made over the blocks without a count, and the blocks are popped that got one.

Neither queue just becomes shorter. Serving a block may let another one wait with its count, even
the block itself when an arc returns to it, and a pass moves blocks from one queue to the other.
But a block comes to wait with its count only when this count is found or that of one of its arcs,
and serving lets no block wait for its count that did not wait before. So the blocks in both queues
and the missing counts of arcs together bound the pops, and the blocks without a count bound the
passes.

## Main definitions

* `Solver.Loops`: the nested loops of a run, with the numbers of pops and of passes.
* `Solver.Spends`: what serving a block does to the queues.
* `Solver.backlog`: the waiting blocks and the arcs without a count.

## Main results

* `Solver.Invariant.spends_serve`: a block becomes ready only for a count that was found.
* `Solver.Loops.le`: the backlog bounds the pops, and the blocks without a count bound the passes.
* `Solver.loops_bounded`: the loops end, for any network, within these bounds.
-/

namespace CoverageFlow

variable {n m : ℕ} {g : Network n m} {c : Counts n m}

namespace Solver

variable {s s' s'' : Solver n m} {pops passes : ℕ}
  {r : EStateM.Result (Obstacle n) (Counts n m) Unit}

/-! ### The nested loops -/

/-- The loops of a run that begins in a state and ends with a result, by the number of blocks that
were popped with their count and the number of passes over the blocks without one. -/
inductive Loops (g : Network n m) : Solver n m → (pops passes : ℕ) →
    EStateM.Result (Obstacle n) (Counts n m) Unit → Prop
  /-- A block that waits with its count is popped and served. -/
  | pop {s s' : Solver n m} {b : Fin n} {ready : MarkedQueue n} {pops passes : ℕ}
      {r : EStateM.Result (Obstacle n) (Counts n m) Unit}
      (hpop : s.ready.pop? = some (b, ready))
      (hserve : serve g b { s with ready } = .ok () s') (rest : Loops g s' pops passes r) :
      Loops g s (pops + 1) passes r
  /-- Serving a block fails, which ends the run. -/
  | clash {s s' : Solver n m} {b b' : Fin n} {ready : MarkedQueue n}
      (hpop : s.ready.pop? = some (b, ready))
      (hserve : serve g b { s with ready } = .error b' s') :
      Loops g s 1 0 (.error (.inconsistent b') s'.counts)
  /-- No block waits. -/
  | settle {s : Solver n m} (hready : s.ready.pop? = none) (hpending : s.pending.size = 0) :
      Loops g s 0 0 (.ok () s.counts)
  /-- A pass gives some block a count. -/
  | pass {s : Solver n m} {pops passes : ℕ}
      {r : EStateM.Result (Obstacle n) (Counts n m) Unit}
      (hready : s.ready.pop? = none) (hpending : s.pending.size ≠ 0)
      (hgain : (sweep s).pending.size < s.pending.size) (rest : Loops g (sweep s) pops passes r) :
      Loops g s pops (passes + 1) r
  /-- A pass gives no block a count, which ends the run. -/
  | stall {s : Solver n m} (hready : s.ready.pop? = none) (hpending : s.pending.size ≠ 0)
      (hstall : ¬ (sweep s).pending.size < s.pending.size) :
      Loops g s 0 1 (.error (.undetermined (sweep s).pending.size) (sweep s).counts)

/-! ### The loops and the rounds -/

section Step

variable {b b' : Fin n} {ready : MarkedQueue n}

theorem step_eq_served (hpop : s.ready.pop? = some (b, ready))
    (hserve : serve g b { s with ready } = .ok () s') : step g s = .served s' := by
  simp only [step, hpop, hserve]

theorem step_eq_clash (hpop : s.ready.pop? = some (b, ready))
    (hserve : serve g b { s with ready } = .error b' s') : step g s = .clash b' s' := by
  simp only [step, hpop, hserve]

theorem step_eq_settled (hready : s.ready.pop? = none) (hpending : s.pending.size = 0) :
    step g s = .settled := by
  simp only [step, hready, if_pos hpending]

theorem step_eq_swept (hready : s.ready.pop? = none) (hpending : s.pending.size ≠ 0)
    (hgain : (sweep s).pending.size < s.pending.size) : step g s = .swept (sweep s) := by
  simp only [step, hready, if_neg hpending, if_pos hgain]

theorem step_eq_stalled (hready : s.ready.pop? = none) (hpending : s.pending.size ≠ 0)
    (hstall : ¬ (sweep s).pending.size < s.pending.size) : step g s = .stalled (sweep s) := by
  simp only [step, hready, if_neg hpending, if_neg hstall]

end Step

/-- A run goes through its loops, which end because every round lowers the potential. -/
theorem exists_loops (g : Network n m) (s : Solver n m) :
    ∃ pops passes, Loops g s pops passes (run g s) := by
  rcases hpop : s.ready.pop? with - | ⟨b, ready⟩
  · by_cases hpending : s.pending.size = 0
    · rw [run, step_eq_settled hpop hpending]
      exact ⟨0, 0, .settle hpop hpending⟩
    by_cases hgain : (sweep s).pending.size < s.pending.size
    · have hstep : step g s = .swept (sweep s) := step_eq_swept hpop hpending hgain
      obtain ⟨pops, passes, hrest⟩ := exists_loops g (sweep s)
      rw [run, hstep]
      exact ⟨pops, passes + 1, .pass hpop hpending hgain hrest⟩
    · rw [run, step_eq_stalled hpop hpending hgain]
      exact ⟨0, 1, .stall hpop hpending hgain⟩
  · rcases hserve : serve g b { s with ready } with ⟨⟨⟩, s'⟩ | ⟨b', s'⟩
    · have hstep : step g s = .served s' := step_eq_served hpop hserve
      obtain ⟨pops, passes, hrest⟩ := exists_loops g s'
      rw [run, hstep]
      exact ⟨pops + 1, passes, .pop hpop hserve hrest⟩
    · rw [run, step_eq_clash hpop hserve]
      exact ⟨1, 0, .clash hpop hserve⟩
termination_by s.potential
decreasing_by
  · exact potential_of_swept hstep
  · exact potential_of_served hstep

/-- The loops end as the run does. -/
theorem Loops.eq_run (h : Loops g s pops passes r) : r = run g s := by
  induction h with
  | @pop s _ _ _ _ _ _ hpop hserve _ ih => rw [ih, run.eq_def g s, step_eq_served hpop hserve]
  | clash hpop hserve => rw [run, step_eq_clash hpop hserve]
  | settle hready hpending => rw [run, step_eq_settled hready hpending]
  | @pass s _ _ _ hready hpending hgain _ ih =>
    rw [ih, run.eq_def g s, step_eq_swept hready hpending hgain]
  | stall hready hpending hstall => rw [run, step_eq_stalled hready hpending hstall]

/-! ### What serving a block does to the queues -/

/-- What serving a block does to the queues: the blocks without a count keep waiting for it, and
no more blocks become ready than arcs get a count. -/
structure Spends (s s' : Solver n m) : Prop where
  pending : s'.pending.size = s.pending.size
  ready : s'.counts.unknownArcs + s'.ready.size ≤ s.counts.unknownArcs + s.ready.size

theorem Spends.refl (s : Solver n m) : s.Spends s := ⟨rfl, le_rfl⟩

theorem Spends.trans (h : s.Spends s') (h' : s'.Spends s'') : s.Spends s'' :=
  ⟨h'.pending.trans h.pending, h'.ready.trans h.ready⟩

/-- A block that is told of a change waits for its count already, if it has none. -/
theorem size_notify {b : Fin n} (d : Direction) (hvalid : s.pending.Valid)
    (hpending : s.counts.blocks.get b = none → b ∈ s.pending.toList) :
    (notify s b d).pending.size = s.pending.size ∧
      (notify s b d).ready.size ≤ s.ready.size + 1 := by
  rw [notify]
  split
  · next hnone =>
    have hlist := hvalid.toList_push_of_mem (hpending (Option.isNone_iff_eq_none.1 hnone))
    refine ⟨?_, Nat.le_succ _⟩
    rw [← MarkedQueue.length_toList, hlist, MarkedQueue.length_toList]
  · split
    · exact ⟨rfl, s.ready.size_push_le b⟩
    · exact ⟨rfl, Nat.le_succ _⟩

namespace Invariant

variable {todo : Fin n → Direction → Prop} {b : Fin n} {d : Direction} {i : Fin m} {count : Count}

/-- An arc gets its count, and the block at its other end may become ready. -/
theorem spends_assign (h : s.Invariant g [] todo) (hi : s.counts.arcs.get i = none)
    (hok : assign g i d count s = .ok () s') : s.Spends s' := by
  obtain ⟨sides, -, rfl⟩ := Solver.assign_eq_ok hok
  obtain ⟨hpending, hready⟩ := size_notify
    (s := { s with counts := s.counts.setArc i count, sides := sides }) d.opposite
    h.pending_valid h.mem_pending.2
  have harcs := Counts.unknownArcs_setArc hi count
  refine ⟨hpending, ?_⟩
  rw [counts_notify]
  dsimp only at hready ⊢
  omega

theorem spends_completeSide (h : s.Invariant g [] todo)
    (hok : completeSide g b d s = .ok () s') : s.Spends s' := by
  obtain ⟨heq, -⟩ | ⟨heq, -⟩ | ⟨i, rest, heq, hopen, -⟩ := h.completeSide_cases b d
  · rw [heq] at hok
    cases hok
    exact .refl s
  · rw [heq] at hok
    cases hok
  · rw [heq] at hok
    exact h.spends_assign (Counts.mem_openArcs.1 (hopen ▸ Finset.mem_singleton_self i)).2 hok

/-- While a block is served, each block that becomes ready does so for an arc that got its
count. -/
theorem spends_serve (h : s.Invariant g [] todo) (hok : serve g b s = .ok () s') :
    s.Spends s' := by
  obtain ⟨s₁, hfirst, hsecond⟩ := Solver.serve_eq_ok hok
  have hnext := (h.completeSide_eq_ok hfirst).1
  exact (h.spends_completeSide hfirst).trans (hnext.spends_completeSide hsecond)

end Invariant

/-! ### The bounds -/

/-- The waiting blocks and the arcs without a count. -/
def backlog (s : Solver n m) : ℕ :=
  s.counts.unknownArcs + s.ready.size + s.pending.size

/-- No block waits in both queues. -/
theorem Valid.size_le (h : s.Valid g) : s.ready.size + s.pending.size ≤ n := by
  have hnodup : (s.ready.toList ++ s.pending.toList).Nodup := by
    refine List.nodup_append.2 ⟨h.ready_valid.nodup, h.pending_valid.nodup, ?_⟩
    rintro b hready _ hpending rfl
    exact h.ready b hready (h.mem_pending.1 hpending)
  have hcard := hnodup.length_le_card
  rwa [List.length_append, MarkedQueue.length_toList, MarkedQueue.length_toList,
    Fintype.card_fin] at hcard

/-- Every pop takes something off the backlog, and every pass adds nothing to it but takes a block
off those without a count. -/
theorem Loops.le (hloops : Loops g s pops passes r) (h : s.Valid g) :
    pops ≤ s.backlog ∧ passes ≤ s.pending.size := by
  induction hloops with
  | pop hpop hserve _ ih =>
    have hpopped := h.pop_ready hpop
    have hspends := hpopped.spends_serve hserve
    have hsize := MarkedQueue.size_of_pop? hpop
    have hpending := hspends.pending
    have hready := hspends.ready
    obtain ⟨hpops, hpasses⟩ := ih (hpopped.serve_eq_ok hserve).1
    -- One block left its queue, and any that took its place cost an arc without a count.
    simp only [backlog] at *
    omega
  | clash hpop _ =>
    have hsize := MarkedQueue.size_of_pop? hpop
    simp only [backlog]
    omega
  | settle => exact ⟨Nat.zero_le _, Nat.zero_le _⟩
  | @pass s _ _ _ _ _ hgain _ ih =>
    obtain ⟨harcs, hqueues⟩ := sweep_le s
    obtain ⟨hpops, hpasses⟩ := ih h.sweep.1
    -- Blocks only moved from one queue to the other, at least one of them.
    simp only [backlog] at *
    omega
  | stall _ hpending _ => exact ⟨Nat.zero_le _, Nat.one_le_iff_ne_zero.2 hpending⟩

/-- The loops of a run end for any network and any known counts. In total they pop a block at most
once for each block and each arc without a count, and pass over the blocks without a count at most
as often as there are such blocks. -/
theorem loops_bounded (h : start g c = .ok s) :
    (∃ pops passes, Loops g s pops passes (run g s)) ∧
      ∀ pops passes r, Loops g s pops passes r →
        r = run g s ∧ pops ≤ n + c.unknownArcs ∧ passes ≤ c.unknownBlocks := by
  obtain ⟨hvalid, hcounts⟩ := valid_start h
  refine ⟨exists_loops g s, fun pops passes r hloops => ⟨hloops.eq_run, ?_⟩⟩
  obtain ⟨hpops, hpasses⟩ := hloops.le hvalid
  have hsize := hvalid.size_le
  rw [backlog, hcounts] at hpops
  rw [hvalid.pending_size, hcounts] at hpasses
  exact ⟨by omega, hpasses⟩

/-- A block that returns to itself is popped twice: its incoming side determines the loop, which
leaves one open arc on its outgoing side. The other blocks get their counts in two passes. -/
theorem loops_bounded_loop :
    let g : Network 4 4 := #v[⟨0, 1⟩, ⟨1, 1⟩, ⟨1, 2⟩, ⟨2, 3⟩]
    let c : Counts 4 4 := ⟨#v[none, some 5, none, none], #v[some 2, none, none, none]⟩
    ∃ s, start g c = .ok s ∧ Loops g s 5 2 (run g s) ∧
      5 ≤ 4 + c.unknownArcs ∧ 2 ≤ c.unknownBlocks := by
  intro g c
  obtain ⟨s, r, hstart, hloops⟩ : ∃ s r, start g c = .ok s ∧ Loops g s 5 2 r := by
    unfold g c
    -- Block 1 twice, a pass, blocks 0 and 2, a pass, block 3.
    exact ⟨_, _, by cbv, .pop (by cbv) (by cbv) <| .pop (by cbv) (by cbv) <|
      .pass (by cbv) (by cbv) (by cbv) <| .pop (by cbv) (by cbv) <| .pop (by cbv) (by cbv) <|
      .pass (by cbv) (by cbv) (by cbv) <| .pop (by cbv) (by cbv) <| .settle (by cbv) (by cbv)⟩
  obtain ⟨rfl, hpops, hpasses⟩ := (loops_bounded hstart).2 5 2 r hloops
  exact ⟨s, hstart, hloops, hpops, hpasses⟩

end Solver

end CoverageFlow
