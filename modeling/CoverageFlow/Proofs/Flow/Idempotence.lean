import CoverageFlow.Proofs.Flow.Serving

/-!
# Completing counts twice

Completed counts can be given to the solver again. It starts anew, with tallies built from all the
counts that are known by now and with every block that has a count waiting to be served. Yet it
finds nothing: where it stopped before, nothing more could be deduced, so no side that is served
determines an arc, and no sweep finds a count. Counts for which nothing can be deduced are left as
they are, and no clash is met even if they do not conserve flow, since the solver compares sums
only where it deduces a count.

## Main results

* `Solver.serve_of_saturated`: where nothing can be deduced, serving a block does nothing.
* `Network.complete_of_saturated`: how completing saturated counts ends.
* `Network.Settles.complete_eq`: completing completed counts ends as it did before.
-/

namespace CoverageFlow

variable {n m : ℕ} {g : Network n m} {c c' : Counts n m}

namespace Solver

variable {s s' : Solver n m}

/-- A side determines no arc where nothing can be deduced. -/
theorem completeSide_of_saturated (h : s.sides.Tallies s.counts g) (hs : s.counts.Saturated g)
    (b : Fin n) (d : Direction) : completeSide g b d s = .ok () s := by
  rcases hb : s.counts.blocks.get b with - | count
  · rw [completeSide, hb]
  · have hone : (s.sides.side d b).unknown ≠ 1 := by
      rw [(h d b).unknown]
      exact hs.card_openArcs_ne_one (by rw [hb]; exact Option.some_ne_none count)
    simp only [completeSide, hb, if_neg hone]

theorem serve_of_saturated (h : s.sides.Tallies s.counts g) (hs : s.counts.Saturated g)
    (b : Fin n) : serve g b s = .ok () s := by
  simp only [serve, bind, EStateM.bind, completeSide_of_saturated h hs]

/-- A round meets no clash where nothing can be deduced. -/
theorem Valid.step_ne_clash (h : s.Valid g) (hs : s.counts.Saturated g) (b : Fin n) :
    Solver.step g s ≠ .clash b s' := by
  rw [Solver.step]
  split
  · next b' ready _ =>
    have hserve : serve g b' { s with ready } = .ok () { s with ready } := by
      apply serve_of_saturated
      · exact h.tallies
      · exact hs
    rw [hserve]
    rintro ⟨⟩
  · split
    · rintro ⟨⟩
    · dsimp only
      split <;> rintro ⟨⟩

/-- Neither does a run, since its rounds deduce nothing. -/
theorem Valid.run_ne_inconsistent (h : s.Valid g) (hs : s.counts.Saturated g) (b : Fin n)
    (c' : Counts n m) : Solver.run g s ≠ .error (.inconsistent b) c' := by
  refine Valid.run_induction (P := fun s r => s.counts.Saturated g →
    r ≠ .error (.inconsistent b) c') ?next ?settled ?stalled ?clash h hs
  case next =>
    intro s s' r _ _ hentails _ hr hs
    exact hr (hs.eq_of_entails hentails ▸ hs)
  case settled =>
    rintro s - - - ⟨⟩
  case stalled =>
    rintro s s' - - - ⟨⟩
  case clash =>
    intro s b' s' h hstep hs
    exact absurd hstep (h.step_ne_clash hs b')

end Solver

namespace Network

/-- Saturated counts stay as they are, unless a side carries more than any count can be. -/
theorem complete_of_saturated (hs : c.Saturated g) (hflow : ∀ d b, c.flow g d b < UInt64.size) :
    g.complete c = if c.missing = ∅ then .ok () c else .error (.undetermined
      (if c.unknownBlocks = 0 then c.unknownArcs else c.unknownBlocks)) c := by
  have hend := concludes_complete g c
  rcases hcomplete : g.complete c with ⟨⟨⟩, c'⟩ | ⟨b | remaining, c'⟩
  · rw [hcomplete] at hend
    obtain rfl := hs.eq_of_entails hend.1
    rw [if_pos hend.2]
  · obtain ⟨s, hstart⟩ := Solver.exists_start_iff.2 hflow
    obtain ⟨hvalid, rfl⟩ := Solver.valid_start hstart
    obtain ⟨herror, -⟩ | ⟨s', hs', hrun⟩ := complete_eq_inconsistent_iff.1 hcomplete
    · rw [hstart] at herror
      cases herror
    · rw [hstart] at hs'
      cases hs'
      exact absurd hrun (hvalid.run_ne_inconsistent hs b c')
  · rw [hcomplete] at hend
    obtain ⟨hentails, -, hremaining, -⟩ := hend
    obtain rfl := hs.eq_of_entails hentails
    rw [if_neg (complete_eq_undetermined hcomplete).2.2.ne_empty, hremaining]

/-- Completing completed counts ends as it did before, and changes none of them. -/
theorem Settles.complete_eq (h : g.Settles c c') : g.complete c' = g.complete c := by
  have hflow := h.flow_lt
  have hend := g.concludes_complete c
  obtain hok | ⟨remaining, herror⟩ := h
  · rw [hok] at hend ⊢
    rw [complete_of_saturated (Counts.saturated_of_missing_eq_empty hend.2) hflow, if_pos hend.2]
  · obtain ⟨-, hs, hmissing⟩ := complete_eq_undetermined herror
    rw [herror] at hend ⊢
    rw [complete_of_saturated hs hflow, if_neg hmissing.ne_empty, hend.2.2.1]

end Network

end CoverageFlow
