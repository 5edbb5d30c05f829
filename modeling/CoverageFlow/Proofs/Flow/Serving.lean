import CoverageFlow.Proofs.Flow.Completion

/-!
# The states that a run passes through

A run of the solver passes from round to round. Inside a round it serves one side of a block and
then the other, and only there it takes an arc off the missing ones that a tally counts. The
invariant of the solver holds in each of these states, so a tally is never taken below zero.

## Main definitions

* `Solver.Reaches`: the states at the beginning of the rounds of a run.
* `Solver.Serves`: the states in which a side of a block is served.
* `Network.Settles`: counts are completed as far as they can be, and no clash is met.

## Main results

* `Solver.Reaches.valid`: the invariant holds in every round.
* `Solver.Serves.unknown_pos`: an arc that is settled is one of those that the tallies count.
* `Network.Settles.flow_lt`: what a side carries in the end is a count.
-/

namespace CoverageFlow

variable {n m : ℕ} {g : Network n m} {c c' : Counts n m} {s s' : Solver n m}

namespace Solver

/-- The states at the beginning of the rounds of a run that completes the counts `c`. -/
inductive Reaches (g : Network n m) (c : Counts n m) : Solver n m → Prop
  | start {s : Solver n m} (h : start g c = .ok s) : Reaches g c s
  | served {s s' : Solver n m} (before : Reaches g c s) (h : step g s = .served s') :
    Reaches g c s'
  | swept {s s' : Solver n m} (before : Reaches g c s) (h : step g s = .swept s') :
    Reaches g c s'

/-- The states in which a round serves a side of a block. -/
inductive Serves (g : Network n m) (c : Counts n m) : Solver n m → Fin n → Direction → Prop
  | outgoing {s : Solver n m} {b : Fin n} {ready : MarkedQueue n} (round : Reaches g c s)
    (h : s.ready.pop? = some (b, ready)) : Serves g c { s with ready } b .outgoing
  | incoming {s s' : Solver n m} {b : Fin n} (before : Serves g c s b .outgoing)
    (h : completeSide g b .outgoing s = .ok () s') : Serves g c s' b .incoming

theorem Reaches.valid (h : Reaches g c s) : s.Valid g := by
  induction h with
  | start hstart => exact (valid_start hstart).1
  | served _ hstep ih => exact (ih.of_served hstep).1
  | swept _ hstep ih => exact (ih.of_swept hstep).1

/-- While a block is served, the invariant excepts no other block. -/
theorem Serves.invariant {b : Fin n} {d : Direction} (h : Serves g c s b d) :
    s.Invariant g [] fun b' _ => b' = b := by
  induction h with
  | outgoing round hpop => exact round.valid.pop_ready hpop
  | incoming _ hserve ih =>
    exact (ih.completeSide_eq_ok hserve).1.imp fun _ _ _ _ _ htodo => htodo.1

/-- An arc that a side determines is missing in the tallies of both sides on which it lies. -/
theorem Serves.unknown_pos {b : Fin n} {d : Direction} {i : Fin m} (h : Serves g c s b d)
    (hi : missingArc? g s b d = some i) (d' : Direction) :
    0 < (s.sides.side d' ((g.get i).near d')).unknown := by
  rw [(h.invariant.tallies d' _).unknown, Finset.card_pos]
  exact ⟨i, Counts.mem_openArcs.2 ⟨rfl, missingArc?_isNone hi⟩⟩

/-- Unless it meets a clash, a run ends with the counts of its last round. -/
theorem Reaches.exists_of_run (h : Reaches g c s) (hrun : run g s = .ok () c' ∨
    ∃ remaining, run g s = .error (.undetermined remaining) c') :
    ∃ s', Reaches g c s' ∧ s'.counts = c' := by
  refine Valid.run_induction (P := fun s r => Reaches g c s → (r = .ok () c' ∨
    ∃ remaining, r = .error (.undetermined remaining) c') → ∃ s', Reaches g c s' ∧ s'.counts = c')
    ?next ?settled ?stalled ?clash h.valid h hrun
  case next =>
    rintro s s' r - - - (hstep | hstep) hr h
    · exact hr (h.served hstep)
    · exact hr (h.swept hstep)
  case settled =>
    rintro s - - h (⟨⟨⟩⟩ | ⟨_, ⟨⟩⟩)
    exact ⟨s, h, rfl⟩
  case stalled =>
    rintro s s' hvalid hstep h (⟨⟨⟩⟩ | ⟨_, ⟨⟩⟩)
    have hsound := hvalid.step
    rw [hstep] at hsound
    exact ⟨s, h, hsound.2.1.symm⟩
  case clash =>
    rintro s b s' - - - (⟨⟨⟩⟩ | ⟨_, ⟨⟩⟩)

end Solver

namespace Network

/-- Completing the counts `c` meets no clash and leaves the counts `c'`. -/
def Settles (g : Network n m) (c c' : Counts n m) : Prop :=
  g.complete c = .ok () c' ∨ ∃ remaining, g.complete c = .error (.undetermined remaining) c'

theorem Settles.exists_reaches (h : g.Settles c c') :
    ∃ s, Solver.Reaches g c s ∧ s.counts = c' := by
  rw [Settles, complete] at h
  rcases hstart : Solver.start g c with b | s
  · rw [hstart] at h
    obtain ⟨⟨⟩⟩ | ⟨_, ⟨⟩⟩ := h
  refine (Solver.Reaches.start hstart).exists_of_run ?_
  rcases hrun : s.run g with ⟨⟨⟩, c''⟩ | ⟨o, c''⟩
  · simp only [hstart, hrun] at h
    split at h
    · obtain ⟨⟨⟩⟩ | ⟨_, ⟨⟩⟩ := h
      exact .inl rfl
    · obtain ⟨⟨⟩⟩ | ⟨_, ⟨⟩⟩ := h
      exact .inl rfl
  · simp only [hstart, hrun] at h
    obtain ⟨⟨⟩⟩ | ⟨remaining, ⟨⟩⟩ := h
    exact .inr ⟨remaining, rfl⟩

/-- Where no clash is met, what the arcs of a side carry together is a count. -/
theorem Settles.flow_lt (h : g.Settles c c') (d : Direction) (b : Fin n) :
    c'.flow g d b < UInt64.size := by
  obtain ⟨s, hs, rfl⟩ := h.exists_reaches
  rw [← (hs.valid.tallies d b).total]
  exact (s.sides.side d b).total.toNat_lt_size

end Network

end CoverageFlow
