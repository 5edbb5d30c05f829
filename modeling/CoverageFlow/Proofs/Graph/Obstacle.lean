import CoverageFlow.Graph.Merge
import CoverageFlow.Proofs.Flow.Idempotence

/-!
# What an obstacle tells

Counts that cannot be completed are reported with the name of the function, and with a number: how
many counts are open, or which block has counts that do not fit. Either number can be checked
against the counts that are left. What is open there cannot be found by completing them again, and
the block that is named has a side that carries too much, wherever in a run the clash was met.

## Main results

* `Network.complete_again`: completing once more changes nothing, and the open counts are counted.
* `Network.clash_of_inconsistentFlow`: a block that is blamed has a side that carries too much.
-/

namespace CoverageFlow

variable {n m : ℕ} {g : Network n m} {c c' : Counts n m} {o : Obstacle n}
  {name function : String} {number : ℕ}

/-! ### Errors and obstacles -/

theorem Obstacle.error_eq_unsolvable_iff :
    o.error name = .unsolvable function number ↔ o = .undetermined number ∧ function = name := by
  rcases o with b | remaining <;> simp [error, and_comm, eq_comm]

theorem Obstacle.error_eq_inconsistentFlow_iff : o.error name = .inconsistentFlow function number ↔
    ∃ b : Fin n, o = .inconsistent b ∧ (b : ℕ) = number ∧ function = name := by
  rcases o with b | remaining <;> simp [error, and_comm, eq_comm]

namespace Network

/-! ### Open counts -/

/-- If counts stay open, their number is that of the blocks that lack one, or if there are none,
that of the arcs. -/
theorem remaining_of_complete (h : g.complete c = .error (.undetermined number) c') :
    1 ≤ number ∧
      ((∃ b, c'.blocks.get b = none) →
        number = (Finset.univ.filter fun b => c'.blocks.get b = none).card) ∧
      ((¬ ∃ b, c'.blocks.get b = none) →
        number = (Finset.univ.filter fun i => c'.arcs.get i = none).card) := by
  have hend := g.concludes_complete c
  rw [h] at hend
  obtain ⟨-, -, hnumber, hne⟩ := hend
  have hblocks : c'.unknownBlocks = 0 ↔ ¬ ∃ b, c'.blocks.get b = none := by
    rw [Counts.unknownBlocks_eq, Finset.card_eq_zero, Finset.filter_eq_empty_iff, not_exists]
    simp
  refine ⟨Nat.one_le_iff_ne_zero.2 hne, fun hopen => ?_, fun hclosed => ?_⟩
  · rw [hnumber, if_neg fun hzero => hblocks.1 hzero hopen, Counts.unknownBlocks_eq]
  · rw [hnumber, if_pos (hblocks.2 hclosed), Counts.unknownArcs_eq]

/-- Where counts were completed, or stay open, completing them once more ends in the same way and
changes none of them. If they stay open, the error names the function and the number of blocks
without a count, or if there are none, the number of arcs without one. -/
theorem complete_again (g : Network n m) (c c' : Counts n m) (name : String) :
    (g.complete c = .ok () c' → g.complete c' = .ok () c') ∧
      ∀ o, g.complete c = .error o c' →
        ∀ function remaining, o.error name = .unsolvable function remaining →
          g.complete c' = .error o c' ∧ function = name ∧ 1 ≤ remaining ∧
            ((∃ b, c'.blocks.get b = none) →
              remaining = (Finset.univ.filter fun b => c'.blocks.get b = none).card) ∧
            ((¬ ∃ b, c'.blocks.get b = none) →
              remaining = (Finset.univ.filter fun i => c'.arcs.get i = none).card) := by
  refine ⟨fun h => ?_, fun o h function remaining herror => ?_⟩
  · have hsettles : g.Settles c c' := .inl h
    rw [hsettles.complete_eq, h]
  · obtain ⟨rfl, hname⟩ := Obstacle.error_eq_unsolvable_iff.1 herror
    have hsettles : g.Settles c c' := .inr ⟨remaining, h⟩
    rw [hsettles.complete_eq]
    exact ⟨h, hname, remaining_of_complete h⟩

/-- Two parallel arcs leave a block with a known count. If that of one of them is known, all are
found. If neither is, it depends on the other block whether a block or the arcs stay open. -/
theorem complete_again_parallel :
    let g : Network 2 2 := #v[⟨0, 1⟩, ⟨0, 1⟩]
    let given : Counts 2 2 := ⟨#v[some 3, none], #v[some 1, none]⟩
    let found : Counts 2 2 := ⟨#v[some 3, some 3], #v[some 1, some 2]⟩
    let half : Counts 2 2 := ⟨#v[some 3, none], #v[none, none]⟩
    let both : Counts 2 2 := ⟨#v[some 3, some 3], #v[none, none]⟩
    g.complete given = .ok () found ∧ g.complete found = .ok () found ∧
      g.complete half = .error (.undetermined 1) half ∧
      1 = (Finset.univ.filter fun b => half.blocks.get b = none).card ∧
      g.complete both = .error (.undetermined 2) both ∧
      2 = (Finset.univ.filter fun i => both.arcs.get i = none).card := by
  intro g given found half both
  have hgiven : g.complete given = .ok () found := by
    unfold given
    cbv
  have hhalf : g.complete half = .error (.undetermined 1) half := by cbv
  have hboth : g.complete both = .error (.undetermined 2) both := by cbv
  obtain ⟨-, -, -, hblocks, -⟩ := (complete_again g half half "f").2 _ hhalf "f" 1 rfl
  obtain ⟨-, -, -, -, harcs⟩ := (complete_again g both both "f").2 _ hboth "f" 2 rfl
  exact ⟨hgiven, (complete_again g given found "f").1 hgiven, hhalf, hblocks ⟨1, rfl⟩, hboth,
    harcs (by decide)⟩

/-! ### Clashes -/

/-- An error about inconsistent counts names the function and one of its blocks. In the counts that
are left, the known arcs on a side of that block carry more than any count can be, or more than the
block itself. -/
theorem clash_of_inconsistentFlow (g : Network n m) (c c' : Counts n m) (o : Obstacle n)
    (name function : String) (number : ℕ) (h : g.complete c = .error o c')
    (herror : o.error name = .inconsistentFlow function number) :
    function = name ∧ ∃ b : Fin n, (b : ℕ) = number ∧ ∃ d, Count.max.toNat < c'.flow g d b ∨
      ∃ count, c'.blocks.get b = some count ∧ count.toNat < c'.flow g d b := by
  obtain ⟨b, rfl, hnumber, hname⟩ := Obstacle.error_eq_inconsistentFlow_iff.1 herror
  exact ⟨hname, b, hnumber, (complete_eq_inconsistent h).2⟩

/-- Two arcs into a block carry together more than any count. Their counts are found from the blocks
where they begin, and only with the second one the clash shows, at the block where they end. -/
theorem clash_of_inconsistentFlow_join :
    let g : Network 3 2 := #v[⟨0, 2⟩, ⟨1, 2⟩]
    let c : Counts 3 2 := ⟨#v[some Count.max, some 1, none], #v[none, none]⟩
    let c' : Counts 3 2 := ⟨#v[some Count.max, some 1, none], #v[some Count.max, some 1]⟩
    g.complete c = .error (.inconsistent 2) c' ∧ ∃ b : Fin 3, (b : ℕ) = 2 ∧
      ∃ d, Count.max.toNat < c'.flow g d b ∨
        ∃ count, c'.blocks.get b = some count ∧ count.toNat < c'.flow g d b := by
  intro g c c'
  have hend : g.complete c = .error (.inconsistent 2) c' := by
    unfold g c c'
    cbv
  exact ⟨hend, (clash_of_inconsistentFlow g c c' _ "f" "f" 2 hend rfl).2⟩

end Network

end CoverageFlow
