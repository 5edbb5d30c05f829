import CoverageFlow.Proofs.Flow.Completion
import CoverageFlow.Proofs.Flow.Sum

/-!
# Completing sums of counts

Which count the solver completes next, and by which equation, depends on what is known and never
on how large it is. So if counts are the sums of two others, the solver does the same with all
three: what it finds for the sums is the sum of what it finds for the others. This holds for any
counts, whether or not they conserve flow.

The only difference is that a side may carry too much for the sums although it does not for either
of the others. Then the sums are inconsistent.

## Main definitions

* `Solver.AddUp`: the state of a solver is the sum of two others.
* `Solver.Next.AddUp`: three rounds end alike.
* `Solver.SumOfCounts`: how a run for sums ends.

## Main results

* `Solver.AddUp.step`, `Solver.AddUp.run`: rounds and runs do the same to sums.
* `Network.complete_addUp`: completed sums are the sums of completed counts.
-/

namespace CoverageFlow

variable {n m : ℕ} {g : Network n m} {d : Direction} {b : Fin n}

/-! ### The solver -/

namespace Solver

variable {s₁ s₂ s s₁' s₂' s' : Solver n m}

/-- The counts and tallies of a solver are the sums of those of two others, and the same blocks
wait. -/
structure AddUp (s₁ s₂ s : Solver n m) : Prop where
  counts : s₁.counts.AddUp s₂.counts s.counts
  sides : s₁.sides.AddUp s₂.sides s.sides
  pending_left : s₁.pending = s.pending
  pending_right : s₂.pending = s.pending
  ready_left : s₁.ready = s.ready
  ready_right : s₂.ready = s.ready

/-- What an operation may lead to that succeeds for two solvers: the sum of the two, or an error
since a total is too large. -/
def SumOrOverflow (s₁ s₂ : Solver n m) : EStateM.Result (Fin n) (Solver n m) Unit → Prop
  | .ok () s => s₁.AddUp s₂ s
  | .error _ _ => s₁.sides.Overflow s₂.sides

theorem sides_notify (s : Solver n m) (b : Fin n) (d : Direction) :
    (notify s b d).sides = s.sides := by
  rw [notify]
  split
  · rfl
  · split <;> rfl

namespace AddUp

theorem symm (h : s₁.AddUp s₂ s) : s₂.AddUp s₁ s where
  counts := h.counts.symm
  sides := h.sides.symm
  pending_left := h.pending_right
  pending_right := h.pending_left
  ready_left := h.ready_right
  ready_right := h.ready_left

theorem push_pending (h : s₁.AddUp s₂ s) (b : Fin n) :
    AddUp { s₁ with pending := s₁.pending.push b } { s₂ with pending := s₂.pending.push b }
      { s with pending := s.pending.push b } where
  counts := h.counts
  sides := h.sides
  pending_left := congrArg (·.push b) h.pending_left
  pending_right := congrArg (·.push b) h.pending_right
  ready_left := h.ready_left
  ready_right := h.ready_right

theorem push_ready (h : s₁.AddUp s₂ s) (b : Fin n) :
    AddUp { s₁ with ready := s₁.ready.push b } { s₂ with ready := s₂.ready.push b }
      { s with ready := s.ready.push b } where
  counts := h.counts
  sides := h.sides
  pending_left := h.pending_left
  pending_right := h.pending_right
  ready_left := congrArg (·.push b) h.ready_left
  ready_right := congrArg (·.push b) h.ready_right

theorem notify (h : s₁.AddUp s₂ s) (b : Fin n) (d : Direction) :
    (notify s₁ b d).AddUp (notify s₂ b d) (notify s b d) := by
  have hblock := h.counts.blocks b
  have hside := h.sides d b
  simp only [Solver.notify, hblock.isNone_eq, hblock.symm.isNone_eq, hside.unknown_left,
    hside.unknown_right]
  split
  · exact h.push_pending b
  · split
    · exact h.push_ready b
    · exact h

/-- The arc that is looked up does not depend on the counts that are known. -/
theorem missingArc?_eq (h : s₁.AddUp s₂ s) (g : Network n m) (b : Fin n) (d : Direction) :
    missingArc? g s₁ b d = missingArc? g s b d := by
  simp only [missingArc?, (h.counts.arcs _).isNone_eq]

/-- Solvers that add up still do after counts that add up were assigned to an arc, unless a total
becomes too large. -/
theorem assign (h : s₁.AddUp s₂ s) {i : Fin m} {a₁ a₂ a : Count}
    (ha : a.toNat = a₁.toNat + a₂.toNat) (h₁ : assign g i d a₁ s₁ = .ok () s₁')
    (h₂ : Solver.assign g i d a₂ s₂ = .ok () s₂') :
    s₁'.SumOrOverflow s₂' (Solver.assign g i d a s) := by
  obtain ⟨sides₁, hsettle₁, rfl⟩ := assign_eq_ok h₁
  obtain ⟨sides₂, hsettle₂, rfl⟩ := assign_eq_ok h₂
  have hsides := h.sides.settleArc ha hsettle₁ hsettle₂
  rcases hsettle : s.sides.settleArc (g.get i) d a with b | sides
  · rw [hsettle] at hsides
    simp only [Solver.assign, hsettle, SumOrOverflow, sides_notify]
    exact hsides
  · rw [hsettle] at hsides
    simp only [Solver.assign, hsettle]
    refine AddUp.notify ?_ _ _
    exact { h with
      counts := h.counts.set (.inr i) ha
      sides := hsides }

/-- Solvers that add up still do after one side of a block was served, unless a total becomes too
large. -/
theorem completeSide (h : s₁.AddUp s₂ s) (h₁ : completeSide g b d s₁ = .ok () s₁')
    (h₂ : Solver.completeSide g b d s₂ = .ok () s₂') :
    s₁'.SumOrOverflow s₂' (Solver.completeSide g b d s) := by
  have hside := h.sides d b
  have hblock := h.counts.blocks b
  simp only [Solver.completeSide, hside.unknown_left, h.missingArc?_eq] at h₁
  simp only [Solver.completeSide, hside.unknown_right, h.symm.missingArc?_eq] at h₂
  rw [Solver.completeSide]
  generalize s₁.counts.blocks.get b = o₁ at h₁ hblock
  generalize s₂.counts.blocks.get b = o₂ at h₂ hblock
  generalize s.counts.blocks.get b = o at hblock ⊢
  cases hblock with
  | missing =>
    cases h₁
    cases h₂
    exact h
  | @known a₁ a₂ a ha =>
    dsimp only at h₁ h₂ ⊢
    split_ifs at h₁ h₂ ⊢
    · generalize missingArc? g s b d = arc at h₁ h₂ ⊢
      rcases arc with - | i
      · cases h₁
        cases h₂
        exact h
      · -- What the block of the sum leaves for the arc is the sum of what the others leave.
        rcases hrest₁ : Count.sub? a₁ (s₁.sides.side d b).total with - | rest₁
        · simp only [hrest₁] at h₁
          cases h₁
        rcases hrest₂ : Count.sub? a₂ (s₂.sides.side d b).total with - | rest₂
        · simp only [hrest₂] at h₂
          cases h₂
        simp only [hrest₁] at h₁
        simp only [hrest₂] at h₂
        rw [Count.sub?_eq_some_iff] at hrest₁ hrest₂
        have htotal := hside.total
        rcases hrest : Count.sub? a (s.sides.side d b).total with - | rest
        · rw [Count.sub?_eq_none_iff] at hrest
          omega
        · rw [Count.sub?_eq_some_iff] at hrest
          exact h.assign (by omega) h₁ h₂
    · cases h₁
      cases h₂
      exact h

end AddUp

/-- Serving a side takes no count from any total. -/
theorem completeSide_grows (h : completeSide g b d s = .ok () s') : s.sides.Grows s'.sides := by
  rw [completeSide] at h
  split at h
  · cases h
    exact .refl _
  split_ifs at h
  · split at h
    · cases h
      exact .refl _
    · split at h
      · cases h
      · obtain ⟨sides, hsettle, rfl⟩ := assign_eq_ok h
        rw [sides_notify]
        exact Sides.settleArc_grows hsettle
  · cases h
    exact .refl _

namespace AddUp

/-- Solvers that add up still do after a block was served, unless a total becomes too large. -/
theorem serve (h : s₁.AddUp s₂ s) (h₁ : serve g b s₁ = .ok () s₁')
    (h₂ : Solver.serve g b s₂ = .ok () s₂') : s₁'.SumOrOverflow s₂' (Solver.serve g b s) := by
  obtain ⟨t₁, hout₁, hin₁⟩ := serve_eq_ok h₁
  obtain ⟨t₂, hout₂, hin₂⟩ := serve_eq_ok h₂
  have hout := h.completeSide hout₁ hout₂
  simp only [Solver.serve, bind, EStateM.bind]
  rcases hfirst : Solver.completeSide g b .outgoing s with ⟨⟨⟩, t⟩ | ⟨b', t⟩
  · rw [hfirst] at hout
    exact hout.completeSide hin₁ hin₂
  · rw [hfirst] at hout
    exact hout.mono (completeSide_grows hin₁) (completeSide_grows hin₂)

/-! ### From arcs to a block -/

theorem implied? (h : s₁.AddUp s₂ s) (b : Fin n) :
    CoverageFlow.AddUp (s₁.implied? b) (s₂.implied? b) (s.implied? b) := by
  have hout := (h.sides .outgoing b).implied?
  have hin := (h.sides .incoming b).implied?
  simp only [Solver.implied?]
  generalize (s₁.sides.side .outgoing b).implied? = o₁ at hout ⊢
  generalize (s₂.sides.side .outgoing b).implied? = o₂ at hout ⊢
  generalize (s.sides.side .outgoing b).implied? = o at hout ⊢
  cases hout with
  | missing => exact hin
  | known hsum => exact .known hsum

theorem examine (h : s₁.AddUp s₂ s) (b : Fin n) :
    (examine s₁ b).AddUp (examine s₂ b) (examine s b) := by
  have himplied := h.implied? b
  simp only [Solver.examine]
  generalize s₁.implied? b = o₁ at himplied ⊢
  generalize s₂.implied? b = o₂ at himplied ⊢
  generalize s.implied? b = o at himplied ⊢
  cases himplied with
  | missing => exact h.push_pending b
  | known hsum => exact { h.push_ready b with counts := h.counts.set (.inl b) hsum }

/-- Operations on single blocks that keep solvers adding up do so for a list of blocks. -/
theorem foldl {f : Solver n m → Fin n → Solver n m}
    (hf : ∀ {s₁ s₂ s : Solver n m}, s₁.AddUp s₂ s → ∀ b, (f s₁ b).AddUp (f s₂ b) (f s b))
    (h : s₁.AddUp s₂ s) (bs : List (Fin n)) :
    (bs.foldl f s₁).AddUp (bs.foldl f s₂) (bs.foldl f s) := by
  induction bs generalizing s₁ s₂ s with
  | nil => exact h
  | cons b bs ih => exact ih (hf h b)

theorem sweep (h : s₁.AddUp s₂ s) : (sweep s₁).AddUp (sweep s₂) (sweep s) := by
  simp only [Solver.sweep, h.pending_left, h.pending_right]
  refine foldl (fun h b => h.examine b) ?_ _
  exact { h with pending_left := rfl, pending_right := rfl }

/-! ### The first state -/

theorem enqueue (h : s₁.AddUp s₂ s) (b : Fin n) :
    (enqueue s₁ b).AddUp (enqueue s₂ b) (enqueue s b) := by
  have hblock := h.counts.blocks b
  simp only [Solver.enqueue, ← Option.not_isNone, hblock.isNone_eq, hblock.symm.isNone_eq]
  split
  · exact h.push_ready b
  · exact h.push_pending b

end AddUp

/-- The first states add up if the counts do, unless a side carries too much for the sums. -/
theorem addUp_start {c₁ c₂ c : Counts n m} (hc : c₁.AddUp c₂ c) (h₁ : start g c₁ = .ok s₁)
    (h₂ : start g c₂ = .ok s₂) : (∃ s, start g c = .ok s ∧ s₁.AddUp s₂ s) ∨
      (∃ b, start g c = .error b) ∧ Counts.Overflow g c₁ c₂ := by
  rcases hsides₁ : Sides.ofArcs g c₁.arcs with b | sides₁
  · simp only [start, hsides₁] at h₁
    cases h₁
  rcases hsides₂ : Sides.ofArcs g c₂.arcs with b | sides₂
  · simp only [start, hsides₂] at h₂
    cases h₂
  simp only [start, hsides₁] at h₁
  simp only [start, hsides₂] at h₂
  cases h₁
  cases h₂
  have hsum := Sides.addUp_ofArcs hc hsides₁ hsides₂
  rcases hsides : Sides.ofArcs g c.arcs with b | sides
  · rw [hsides] at hsum
    refine .inr ⟨⟨b, by simp only [start, hsides]; rfl⟩, ?_⟩
    exact ((Sides.tallies_of_ofArcs hsides₁).overflow_iff (Sides.tallies_of_ofArcs hsides₂)).1 hsum
  · rw [hsides] at hsum
    refine .inl ⟨_, by simp only [start, hsides]; rfl, AddUp.foldl (fun h b => h.enqueue b) ?_ _⟩
    exact {
      counts := hc
      sides := hsum
      pending_left := rfl
      pending_right := rfl
      ready_left := rfl
      ready_right := rfl }

/-! ### Rounds -/

/-- Three rounds end alike, the last one with the sums of the others. Only a total may be too large
for the sums, and nothing is said where one of the others meets a clash. -/
inductive Next.AddUp : Next n m → Next n m → Next n m → Prop
  | served {s₁ s₂ s : Solver n m} (sum : s₁.AddUp s₂ s) :
      AddUp (.served s₁) (.served s₂) (.served s)
  | overflow {s₁ s₂ s : Solver n m} {b : Fin n} (overflow : s₁.sides.Overflow s₂.sides) :
      AddUp (.served s₁) (.served s₂) (.clash b s)
  | swept {s₁ s₂ s : Solver n m} (sum : s₁.AddUp s₂ s) : AddUp (.swept s₁) (.swept s₂) (.swept s)
  | settled : AddUp .settled .settled .settled
  | stalled {s₁ s₂ s : Solver n m} (sum : s₁.AddUp s₂ s) :
      AddUp (.stalled s₁) (.stalled s₂) (.stalled s)
  | clash_left {s₁ : Solver n m} {b : Fin n} (next₂ next : Next n m) :
      AddUp (.clash b s₁) next₂ next
  | clash_right {s₂ : Solver n m} {b : Fin n} (next₁ next : Next n m) :
      AddUp next₁ (.clash b s₂) next

theorem AddUp.step (h : s₁.AddUp s₂ s) (g : Network n m) :
    Next.AddUp (step g s₁) (step g s₂) (step g s) := by
  simp only [Solver.step, h.ready_left, h.ready_right]
  split
  · next b ready hpop =>
    have hpopped : AddUp { s₁ with ready } { s₂ with ready } { s with ready } :=
      { h with ready_left := rfl, ready_right := rfl }
    rcases hserve₁ : Solver.serve g b { s₁ with ready } with ⟨⟨⟩, s₁'⟩ | ⟨b', s₁'⟩
    · rcases hserve₂ : Solver.serve g b { s₂ with ready } with ⟨⟨⟩, s₂'⟩ | ⟨b', s₂'⟩
      · have hsum := hpopped.serve hserve₁ hserve₂
        rcases hserve : Solver.serve g b { s with ready } with ⟨⟨⟩, s'⟩ | ⟨b', s'⟩
        · rw [hserve] at hsum
          exact .served hsum
        · rw [hserve] at hsum
          exact .overflow hsum
      · exact .clash_right _ _
    · exact .clash_left _ _
  · have hswept := h.sweep
    simp only [h.pending_left, h.pending_right, hswept.pending_left, hswept.pending_right]
    split_ifs
    · exact .settled
    · exact .swept hswept
    · exact .stalled hswept

/-! ### Runs -/

/-- A run for sums ends with the sums of what two other runs found, and no side carries too much
for them. Otherwise a side does, and the run finds an inconsistency. -/
def SumOfCounts (g : Network n m) (c₁ c₂ : Counts n m) :
    EStateM.Result (Obstacle n) (Counts n m) Unit → Prop
  | .ok () c => c₁.AddUp c₂ c ∧ ¬ Counts.Overflow g c₁ c₂
  | .error (.inconsistent _) _ => Counts.Overflow g c₁ c₂
  | .error (.undetermined _) _ => False

theorem Valid.extends_of_run {c : Counts n m} (h : s.Valid g) (hrun : Solver.run g s = .ok () c) :
    c.Extends s.counts := by
  have hend := h.run
  rw [hrun] at hend
  exact hend.1.extends

/-- If two runs complete all blocks, a run for the sums completes them to the sums, unless a side
carries too much. -/
theorem AddUp.run {c₁ c₂ : Counts n m} (h : s₁.AddUp s₂ s) (hvalid₁ : s₁.Valid g)
    (hvalid₂ : s₂.Valid g) (h₁ : run g s₁ = .ok () c₁) (h₂ : Solver.run g s₂ = .ok () c₂) :
    SumOfCounts g c₁ c₂ (Solver.run g s) := by
  -- A round either ends the run or lowers the potential.
  induction hpotential : s₁.potential using Nat.strong_induction_on generalizing s₁ s₂ s with
  | _ potential ih =>
    subst hpotential
    have hnext := h.step g
    generalize hstep₁ : Solver.step g s₁ = next₁ at hnext
    generalize hstep₂ : Solver.step g s₂ = next₂ at hnext
    generalize hstep : Solver.step g s = next at hnext
    rw [Solver.run, hstep₁] at h₁
    rw [Solver.run, hstep₂] at h₂
    rw [Solver.run, hstep]
    cases hnext with
    | served hsum =>
      exact ih _ (potential_of_served hstep₁) hsum (hvalid₁.of_served hstep₁).1
        (hvalid₂.of_served hstep₂).1 h₁ h₂ rfl
    | overflow hoverflow =>
      have hvalid₁' := (hvalid₁.of_served hstep₁).1
      have hvalid₂' := (hvalid₂.of_served hstep₂).1
      exact ((hvalid₁'.tallies.overflow_iff hvalid₂'.tallies).1 hoverflow).mono
        (hvalid₁'.extends_of_run h₁) (hvalid₂'.extends_of_run h₂)
    | swept hsum =>
      exact ih _ (potential_of_swept hstep₁) hsum (hvalid₁.of_swept hstep₁).1
        (hvalid₂.of_swept hstep₂).1 h₁ h₂ rfl
    | settled =>
      cases h₁
      cases h₂
      exact ⟨h.counts, mt (hvalid₁.tallies.overflow_iff hvalid₂.tallies).2 h.sides.not_overflow⟩
    | stalled => cases h₁
    | clash_left => cases h₁
    | clash_right => cases h₂

end Solver

/-! ### Completed sums -/

namespace Network

variable {c₁ c₂ c c₁' c₂' : Counts n m}

/-- Where completing counts succeeds, the solver ran to its end and left no count open. -/
theorem complete_eq_ok_start (h : g.complete c = .ok () c₁') :
    ∃ s, Solver.start g c = .ok s ∧ s.run g = .ok () c₁' ∧ c₁'.missing = ∅ := by
  have hmissing := (complete_eq_ok h).2
  rw [complete] at h
  rcases hstart : Solver.start g c with b | s
  · simp only [hstart] at h
    cases h
  simp only [hstart] at h
  rcases hrun : s.run g with ⟨⟨⟩, c'⟩ | ⟨e, c'⟩
  · simp only [hrun] at h
    split_ifs at h
    cases h
    exact ⟨s, rfl, hrun, hmissing⟩
  · simp only [hrun] at h
    cases h

/-- If two counts can be completed, their sums are completed to the sums of what was found, unless
a side carries too much. Then the sums are inconsistent. -/
theorem complete_addUp (h : c₁.AddUp c₂ c) (h₁ : g.complete c₁ = .ok () c₁')
    (h₂ : g.complete c₂ = .ok () c₂') : Solver.SumOfCounts g c₁' c₂' (g.complete c) := by
  obtain ⟨s₁, hstart₁, hrun₁, hmissing₁⟩ := complete_eq_ok_start h₁
  obtain ⟨s₂, hstart₂, hrun₂, -⟩ := complete_eq_ok_start h₂
  obtain ⟨hvalid₁, rfl⟩ := Solver.valid_start hstart₁
  obtain ⟨hvalid₂, rfl⟩ := Solver.valid_start hstart₂
  rw [complete]
  obtain ⟨s, hstart, hsum⟩ | ⟨⟨b, hstart⟩, hoverflow⟩ := Solver.addUp_start h hstart₁ hstart₂
  · have hend := hsum.run hvalid₁ hvalid₂ hrun₁ hrun₂
    simp only [hstart]
    rcases hrun : s.run g with ⟨⟨⟩, c'⟩ | ⟨b | remaining, c'⟩
    · rw [hrun] at hend
      have hcard := Counts.card_missing c'
      rw [← hend.1.missing_eq, hmissing₁, Finset.card_empty] at hcard
      simp only [← hcard, if_true]
      exact hend
    · rw [hrun] at hend
      exact hend
    · rw [hrun] at hend
      exact hend.elim
  · simp only [hstart]
    exact hoverflow.mono (hvalid₁.extends_of_run hrun₁) (hvalid₂.extends_of_run hrun₂)

end Network

end CoverageFlow
