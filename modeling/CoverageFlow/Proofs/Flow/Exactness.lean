import CoverageFlow.Proofs.Flow.Circulation
import CoverageFlow.Proofs.Flow.Completion

/-!
# Completed counts are right, and missing ones are ambiguous

Suppose that the given counts are part of an assignment of counts to the whole network that
conserves flow. Completing them then meets no clash, and it finds the counts of that assignment or
leaves them open. It leaves counts open only if the equations of the sides leave them open: some
nonzero assignment of integers vanishes on the given counts and conserves flow, so it can be added
to any solution.

## Main results

* `Network.complete_sound`: completed counts are those of the assignment.
* `Network.complete_eq_ok_iff_forall_eq_zero`: the counts are completed exactly if the equations
  determine them.
-/

namespace CoverageFlow

variable {n m : ℕ} {g : Network n m} {c c' : Counts n m}

/-- Where no count is missing, an assignment that vanishes on the counts is zero. -/
theorem Assignment.VanishesOn.eq_zero {δ : Assignment ℤ n m} (h : δ.VanishesOn c)
    (hc : c.missing = ∅) : δ = 0 :=
  funext fun x => h x (Counts.of_ne_none hc x)

/-- What vanishes on more counts vanishes on fewer. -/
theorem Assignment.VanishesOn.mono {δ : Assignment ℤ n m} (h : δ.VanishesOn c')
    (hc : c'.Extends c) : δ.VanishesOn c := fun x hx => h x (hc.of_ne_none hx)

namespace Network

/-! ### Completed counts are right -/

section Sound

variable {φ : Assignment ℕ n m}

/-- Counts of an assignment that conserves flow do not clash. -/
theorem complete_ne_inconsistent (hmax : ∀ x, φ x ≤ Count.max.toNat) (hc : φ.Extends c)
    (hφ : φ.Conserves g) (b : Fin n) (c' : Counts n m) :
    g.complete c ≠ .error (.inconsistent b) c' := by
  intro hend
  obtain ⟨hentails, hclash⟩ := complete_eq_inconsistent hend
  have hextends := hentails.extends_assignment hφ hc
  exact hextends.not_clash hφ (fun x => (hmax x).trans_lt (by decide)) b hclash

/-- Counts of an assignment that conserves flow are completed to that assignment. -/
theorem extends_of_complete_eq_ok (hc : φ.Extends c) (hφ : φ.Conserves g)
    (hend : g.complete c = .ok () c') : φ.Extends c' :=
  (complete_eq_ok hend).1.extends_assignment hφ hc

end Sound

/-- If an assignment of counts has the given counts and conserves flow, completing the counts
meets no clash, leaves only counts of the assignment, and has found all of them if it succeeds. -/
theorem complete_sound (g : Network n m) (c : Counts n m) (φ : Assignment ℕ n m)
    (hmax : ∀ x, φ x ≤ Count.max.toNat) (hc : φ.Extends c) (hφ : φ.Conserves g) :
    (∀ b c', g.complete c ≠ .error (.inconsistent b) c') ∧
      (∀ remaining c', g.complete c = .error (.undetermined remaining) c' → φ.Extends c') ∧
      ∀ c', g.complete c = .ok () c' → ∀ x, (c'.of x).map UInt64.toNat = some (φ x) := by
  refine ⟨complete_ne_inconsistent hmax hc hφ, fun remaining c' hend => ?_, fun c' hend => ?_⟩
  · exact (complete_eq_undetermined hend).1.extends_assignment hφ hc
  · exact (extends_of_complete_eq_ok hc hφ hend).of_eq (complete_eq_ok hend).2

/-- A block that returns to itself, two parallel arcs from it to the next block, and a fork that
joins again. -/
def loop : Network 6 8 :=
  #v[⟨0, 1⟩, ⟨1, 1⟩, ⟨1, 2⟩, ⟨1, 2⟩, ⟨2, 3⟩, ⟨2, 4⟩, ⟨3, 5⟩, ⟨4, 5⟩]

/-- Counts of some arcs of `loop`. -/
def loopCounts : Counts 6 8 where
  blocks := #v[none, none, none, none, none, none]
  arcs := #v[none, some 5, some 1, none, some 1, none, none, some 2]

theorem complete_sound_loop :
    let φ : Assignment ℕ 6 8 := Sum.elim ![3, 8, 3, 1, 2, 3] ![3, 5, 1, 2, 1, 2, 1, 2]
    (∀ x, φ x ≤ Count.max.toNat) ∧ φ.Extends loopCounts ∧ φ.Conserves loop ∧
      (∀ b c', loop.complete loopCounts ≠ .error (.inconsistent b) c') ∧
      (∀ remaining c',
        loop.complete loopCounts = .error (.undetermined remaining) c' → φ.Extends c') ∧
      ∀ c', loop.complete loopCounts = .ok () c' → ∀ x, (c'.of x).map UInt64.toNat = some (φ x) :=
  ⟨by decide, by decide, by decide,
    complete_sound loop loopCounts _ (by decide) (by decide) (by decide)⟩

/-! ### Missing counts are ambiguous -/

/-- Unless they clash, the counts are completed exactly if only zero vanishes on the given counts
and conserves flow. Otherwise the missing counts are ambiguous. -/
theorem complete_eq_ok_iff_forall_eq_zero (g : Network n m) (c : Counts n m)
    (h : ∀ b c', g.complete c ≠ .error (.inconsistent b) c') :
    ((∃ c', g.complete c = .ok () c') ↔
        ∀ δ : Assignment ℤ n m, δ.VanishesOn c → δ.Conserves g → δ = 0) ∧
      ∀ remaining c', g.complete c = .error (.undetermined remaining) c' →
        ∃ δ : Assignment ℤ n m, δ ≠ 0 ∧ δ.VanishesOn c ∧ δ.Conserves g := by
  have hambiguous (remaining : ℕ) (c' : Counts n m)
      (hend : g.complete c = .error (.undetermined remaining) c') :
      ∃ δ : Assignment ℤ n m, δ ≠ 0 ∧ δ.VanishesOn c ∧ δ.Conserves g := by
    obtain ⟨hentails, hsaturated, hmissing⟩ := complete_eq_undetermined hend
    obtain ⟨δ, hne, hδ, hconserves⟩ := hsaturated.exists_circulation hmissing
    exact ⟨δ, hne, hδ.mono hentails.extends, hconserves⟩
  refine ⟨⟨fun ⟨c', hend⟩ δ hδ hconserves => ?_, fun hzero => ?_⟩, hambiguous⟩
  · obtain ⟨hentails, hmissing⟩ := complete_eq_ok hend
    exact (hentails.vanishesOn hconserves hδ).eq_zero hmissing
  · rcases hend : g.complete c with ⟨⟨⟩, c'⟩ | ⟨b | remaining, c'⟩
    · exact ⟨c', rfl⟩
    · exact absurd hend (h b c')
    · obtain ⟨δ, hne, hδ, hconserves⟩ := hambiguous remaining c' hend
      exact absurd (hzero δ hδ hconserves) hne

/-- Two parallel arcs. -/
def parallel : Network 2 2 := #v[⟨0, 1⟩, ⟨0, 1⟩]

/-- The count of the block where both arcs of `parallel` begin. -/
def parallelCounts : Counts 2 2 where
  blocks := #v[some 3, none]
  arcs := #v[none, none]

theorem complete_eq_ok_iff_forall_eq_zero_parallel :
    (∀ b c', parallel.complete parallelCounts ≠ .error (.inconsistent b) c') ∧
      ((∃ c', parallel.complete parallelCounts = .ok () c') ↔
        ∀ δ : Assignment ℤ 2 2, δ.VanishesOn parallelCounts → δ.Conserves parallel → δ = 0) ∧
      ∀ remaining c', parallel.complete parallelCounts = .error (.undetermined remaining) c' →
        ∃ δ : Assignment ℤ 2 2, δ ≠ 0 ∧ δ.VanishesOn parallelCounts ∧ δ.Conserves parallel := by
  have hend : parallel.complete parallelCounts = .error (.undetermined 1) parallelCounts := by cbv
  have h (b : Fin 2) (c' : Counts 2 2) :
      parallel.complete parallelCounts ≠ .error (.inconsistent b) c' := by
    rw [hend]
    rintro ⟨⟩
  exact ⟨h, complete_eq_ok_iff_forall_eq_zero parallel parallelCounts h⟩

end Network

end CoverageFlow
