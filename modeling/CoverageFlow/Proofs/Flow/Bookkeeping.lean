import CoverageFlow.Proofs.Flow.Serving

/-!
# The books of the solver

Besides the counts themselves, the solver keeps a tally for each side and two queues of blocks
with their marks. All of this could be computed from the counts. It is in order at the beginning
of every round, whatever rounds went before.

Serving a side relies on it. When the tally says that one arc is open, there is one; when its
count is entered, both tallies of the arc still have an open one to take off; and the sum on the
side that is served stays below the count of the block.

## Main definitions

* `Solver.InOrder`: what the tallies and the queues tell is true.
* `Solver.ServesSafely`: serving a side meets none of the things that cannot happen.

## Main results

* `Solver.Serves.safely`: a side is served safely.
* `Solver.books_in_order`: the books are in order in every round of every run.
-/

namespace CoverageFlow

variable {n m : ℕ} {g : Network n m} {c : Counts n m} {s : Solver n m} {b : Fin n}
  {d : Direction}

namespace Solver

/-- What the tallies and the queues tell is true. -/
structure InOrder (g : Network n m) (s : Solver n m) : Prop where
  /-- A tally has the number of arcs on its side, -/
  arcs : ∀ d b, (s.sides.side d b).arcs = (g.side d b).card
  /-- the number of those without a count, -/
  unknown : ∀ d b, (s.sides.side d b).unknown = (s.counts.openArcs g d b).card
  /-- and the sum of the others. -/
  total : ∀ d b, (s.sides.side d b).total.toNat = s.counts.flow g d b
  /-- Blocks without a count wait in one queue, each of them once. -/
  pending_nodup : s.pending.toList.Nodup
  mem_pending : ∀ b, b ∈ s.pending.toList ↔ s.counts.blocks.get b = none
  pending_marked : ∀ b, s.pending.marked.get b = true ↔ b ∈ s.pending.toList
  /-- In the other queue only blocks with a count wait, each of them once. -/
  ready_nodup : s.ready.toList.Nodup
  known_of_mem_ready : ∀ b ∈ s.ready.toList, s.counts.blocks.get b ≠ none
  ready_marked : ∀ b, s.ready.marked.get b = true ↔ b ∈ s.ready.toList
  /-- A block with a count waits there if one of its sides has exactly one open arc. -/
  mem_ready : ∀ b d, s.counts.blocks.get b ≠ none → (s.counts.openArcs g d b).card = 1 →
    b ∈ s.ready.toList

/-- Serving a side meets none of the things that cannot happen. -/
structure ServesSafely (g : Network n m) (s : Solver n m) (b : Fin n) (d : Direction) : Prop where
  /-- The block has a count. -/
  known : s.counts.blocks.get b ≠ none
  /-- If the tally says that one arc is open, there is one. -/
  found : (s.sides.side d b).unknown = 1 → ∃ i, missingArc? g s b d = some i
  /-- Entering its count overflows nothing on the side that is served, and takes an open arc off
  this tally and off the one at the other end. -/
  settles : ∀ i count rest, missingArc? g s b d = some i → s.counts.blocks.get b = some count →
    Count.sub? count (s.sides.side d b).total = some rest →
      0 < (s.sides.side d ((g.get i).near d)).unknown ∧
      ∃ sides, s.sides.update d ((g.get i).near d) (·.settle? rest) = .ok sides ∧
        0 < (sides.side d.opposite ((g.get i).far d)).unknown

theorem Valid.inOrder (h : s.Valid g) : s.InOrder g where
  arcs d b := (h.tallies d b).arcs
  unknown d b := (h.tallies d b).unknown
  total d b := (h.tallies d b).total
  pending_nodup := h.pending_valid.nodup
  mem_pending _ := h.mem_pending
  pending_marked := h.pending_valid.marked
  ready_nodup := h.ready_valid.nodup
  known_of_mem_ready := h.ready
  ready_marked := h.ready_valid.marked
  mem_ready b d hb hone :=
    (h.waiting b d hb ((h.tallies d b).unknown.trans hone)).resolve_right id

/-- The block that is served has a count, also when its first side has been served. -/
theorem Serves.known (h : Serves g c s b d) : s.counts.blocks.get b ≠ none := by
  induction h with
  | @outgoing s b ready round hpop =>
    refine round.valid.ready b ?_
    rw [MarkedQueue.toList_of_pop? hpop]
    exact List.mem_cons_self
  | @incoming s s' b before hserve ih =>
    obtain ⟨count, hcount⟩ := Option.ne_none_iff_exists'.1 ih
    have hextends := (before.invariant.completeSide_eq_ok hserve).2.extends
    exact Option.ne_none_iff_exists'.2 ⟨count, hextends (.inl b) count hcount⟩

/-- The rest of a count can be added to what was taken off it. -/
theorem exists_settle?_of_sub? {t : Side} {count rest : Count}
    (h : Count.sub? count t.total = some rest) : ∃ t', t.settle? rest = some t' := by
  have hsum : Count.add? t.total rest = some count :=
    Count.add?_eq_some_iff.2 (Count.sub?_eq_some_iff.1 h)
  exact ⟨_, by rw [Side.settle?, hsum, Option.map_some]⟩

/-- A side is served safely. -/
theorem Serves.safely (h : Serves g c s b d) : s.ServesSafely g b d where
  known := h.known
  found hone := by
    refine Option.ne_none_iff_exists'.1 fun hnone => ?_
    rw [(h.invariant.tallies d b).unknown, missingArc?_eq_none hnone, Finset.card_empty] at hone
    exact Nat.zero_ne_one hone
  settles i count rest hi _ hrest := by
    have hnear : (g.get i).near d = b := by
      have hfound := List.find?_some hi
      simp only [Bool.and_eq_true, decide_eq_true_eq] at hfound
      exact hfound.1
    obtain ⟨t, ht⟩ := exists_settle?_of_sub? hrest
    refine ⟨h.unknown_pos hi d, s.sides.set d ((g.get i).near d) t, ?_, ?_⟩
    · rw [Sides.update, hnear, ht]
    · -- The arc lies on the other side of its far end, even if that is the same block.
      rw [Sides.side_set_of_ne _ d.opposite_ne]
      exact h.unknown_pos hi d.opposite

/-- The books are in order at the beginning of every round, and every side is served safely. -/
theorem books_in_order (g : Network n m) (c : Counts n m) :
    (∀ s, Reaches g c s → s.InOrder g) ∧
      ∀ s b d, Serves g c s b d → s.ServesSafely g b d :=
  ⟨fun _ h => h.valid.inOrder, fun _ _ _ h => h.safely⟩

/-- A block that returns to itself is served on both sides. The first one determines the loop,
which enters the block as well. -/
theorem books_in_order_loop :
    let g : Network 3 3 := #v[⟨0, 1⟩, ⟨1, 1⟩, ⟨1, 2⟩]
    let c : Counts 3 3 := ⟨#v[none, some 5, none], #v[some 2, none, some 2]⟩
    ∃ s s' : Solver 3 3, ∃ ready, start g c = .ok s ∧ s.InOrder g ∧
      s.ready.pop? = some (1, ready) ∧ missingArc? g { s with ready } 1 .outgoing = some 1 ∧
      ServesSafely g { s with ready } 1 .outgoing ∧
      completeSide g 1 .outgoing { s with ready } = .ok () s' ∧
      s'.counts.arcs.get 1 = some 3 ∧ s'.ServesSafely g 1 .incoming := by
  intro g c
  obtain ⟨s, s', ready, hstart, hpop, hmissing, hserve, hcount⟩ :
      ∃ s s' : Solver 3 3, ∃ ready, start g c = .ok s ∧ s.ready.pop? = some (1, ready) ∧
        missingArc? g { s with ready } 1 .outgoing = some 1 ∧
        completeSide g 1 .outgoing { s with ready } = .ok () s' ∧
        s'.counts.arcs.get 1 = some 3 := by
    unfold g c
    exact ⟨_, _, _, by cbv, by cbv, by cbv, by cbv, by cbv⟩
  have hround : Reaches g c s := .start hstart
  have hfirst : Serves g c { s with ready } 1 .outgoing := .outgoing hround hpop
  have hbooks := books_in_order g c
  exact ⟨s, s', ready, hstart, hbooks.1 s hround, hpop, hmissing, hbooks.2 _ _ _ hfirst, hserve,
    hcount, hbooks.2 _ _ _ (hfirst.incoming hserve)⟩

end Solver

end CoverageFlow
