import CoverageFlow.Proofs.Flow.Circulation
import CoverageFlow.Proofs.Flow.Completion

/-!
# Backing deduced counts by sides

A count is deduced from a side of which every other count is known. Once it is known, the whole
side is, so nothing more is ever deduced from that side, and it stays balanced. In this way every
deduced count is backed by a balanced side of its own.

Nothing else makes a side balanced. If all counts are known from the outset, for instance, no side
needs to be. But if as many counts were missing at first as there are sides with arcs, then each
side backs one of them, and all sides are balanced in the end, whatever the given counts were.

This is so for a function of which everything is missing but the arcs off a spanning tree: of `n`
blocks all but the entry are entered and all but the exit are left, which makes `2 * n - 2` sides,
and the tree has `n - 2` arcs.

## Main definitions

* `Counts.found`: the elements whose count was found.
* `Counts.BackedBy`: a side for every count that was found.

## Main results

* `Counts.Entails.exists_backedBy`: every deduced count is backed by a side of its own.
* `Counts.Entails.exists_balanced`: it lies on a balanced side.
* `Counts.Entails.balanced_of_card_le`: if no side is spare, all sides are balanced.
* `Network.card_sides`: the number of sides of a network with one entry and one exit.
* `Network.complete_backed`: what both mean for completed counts.
-/

namespace CoverageFlow

namespace Counts

variable {n m : ℕ} {g : Network n m} {c c' c'' : Counts n m} {d : Direction} {b : Fin n}
  {x : Element n m} {σ : Element n m → Direction × Fin n}

/-- The elements whose count is missing in `c` and known in `c'`. -/
def found (c c' : Counts n m) : Finset (Element n m) := c.missing \ c'.missing

theorem mem_found : x ∈ c.found c' ↔ c.of x = none ∧ c'.of x ≠ none := by
  rw [found, Finset.mem_sdiff, mem_missing, mem_missing]

theorem found_self : c.found c = ∅ := Finset.sdiff_self _

/-- If no count is missing in the end, all that were missing at first were found. -/
theorem found_of_missing_eq_empty (h : c'.missing = ∅) : c.found c' = c.missing := by
  rw [found, h, Finset.sdiff_empty]

/-- Every count that was found has a side with arcs that is balanced in the end, and no two of
them have the same side. -/
structure BackedBy (σ : Element n m → Direction × Fin n) (g : Network n m) (c c' : Counts n m) :
    Prop where
  injOn : Set.InjOn σ (c.found c')
  mem_sides : ∀ x ∈ c.found c', σ x ∈ g.sides
  balanced : ∀ x ∈ c.found c', c'.Balanced g (σ x).1 (σ x).2

/-- With one more count found, its side is added. -/
theorem BackedBy.tail (hσ : BackedBy σ g c c') (h : Deduction g c' c'') :
    ∃ σ', BackedBy σ' g c c'' := by
  obtain @⟨d, b, x, count, harcs, hmem, hx, hbalanced⟩ := h
  -- What was found before is still backed by the side it had.
  have hold {y : Element n m} (hy : y ∈ c.found (c'.set x count)) (hne : y ≠ x) :
      y ∈ c.found c' := by
    rw [mem_found, of_set_of_ne c' hne] at hy
    exact mem_found.2 hy
  -- The new side lacked the new count until now, so it did not back any other.
  have hfresh {y : Element n m} (hy : y ∈ c.found c') : σ y ≠ (d, b) := fun he => by
    have hy := (hσ.balanced y hy).known x
    rw [he] at hy
    exact hy hmem hx
  refine ⟨Function.update σ x (d, b), fun y hy z hz hyz => ?_, fun y hy => ?_, fun y hy => ?_⟩
  · by_cases hyx : y = x <;> by_cases hzx : z = x
    · rw [hyx, hzx]
    · rw [hyx, Function.update_self, Function.update_of_ne hzx] at hyz
      exact absurd hyz.symm (hfresh (hold hz hzx))
    · rw [hzx, Function.update_self, Function.update_of_ne hyx] at hyz
      exact absurd hyz (hfresh (hold hy hyx))
    · rw [Function.update_of_ne hyx, Function.update_of_ne hzx] at hyz
      exact hσ.injOn (hold hy hyx) (hold hz hzx) hyz
  · by_cases hyx : y = x
    · rw [hyx, Function.update_self]
      exact Network.mem_sides.2 harcs
    · rw [Function.update_of_ne hyx]
      exact hσ.mem_sides y (hold hy hyx)
  · by_cases hyx : y = x
    · rw [hyx, Function.update_self]
      exact hbalanced
    · rw [Function.update_of_ne hyx]
      exact (hσ.balanced y (hold hy hyx)).mono (extends_set hx count)

/-- Every deduced count is backed by a side of its own. -/
theorem Entails.exists_backedBy (h : Entails g c c') : ∃ σ, BackedBy σ g c c' := by
  induction h with
  | refl =>
    refine ⟨Sum.elim (.outgoing, ·) fun i => (.outgoing, (g.get i).source), ?_, ?_, ?_⟩ <;>
      simp [found_self]
  | tail _ hstep ih =>
    obtain ⟨σ, hσ⟩ := ih
    exact hσ.tail hstep

/-- A deduced count lies on a side with arcs that is balanced. -/
theorem Entails.exists_balanced (h : Entails g c c') (hx : x ∈ c.found c') :
    ∃ d b, (g.side d b).Nonempty ∧ x ∈ g.members d b ∧ c'.Balanced g d b := by
  induction h with
  | refl =>
    rw [found_self] at hx
    exact absurd hx (Finset.notMem_empty x)
  | @tail c₁ c₂ _ hstep ih =>
    by_cases hknown : c₁.of x = none
    · obtain @⟨d, b, y, count, harcs, hmem, -, hbalanced⟩ := hstep
      have hxy : x = y := by
        by_contra hne
        rw [mem_found, of_set_of_ne c₁ hne] at hx
        exact hx.2 hknown
      exact ⟨d, b, harcs, hxy ▸ hmem, hbalanced⟩
    · obtain ⟨d, b, harcs, hmem, hbalanced⟩ := ih (mem_found.2 ⟨(mem_found.1 hx).1, hknown⟩)
      exact ⟨d, b, harcs, hmem, hbalanced.mono hstep.extends⟩

/-- If every missing count was deduced and there are no more sides with arcs than there were
missing counts, all these sides are balanced. -/
theorem Entails.balanced_of_card_le (h : Entails g c c') (hc : c'.missing = ∅)
    (hcard : g.sides.card ≤ c.missing.card) (harcs : (g.side d b).Nonempty) :
    c'.Balanced g d b := by
  obtain ⟨σ, hσ⟩ := h.exists_backedBy
  have hfound := found_of_missing_eq_empty (c := c) hc
  have hsurj : Set.SurjOn σ (c.found c') g.sides := by
    refine Finset.surjOn_of_injOn_of_card_le σ hσ.mem_sides hσ.injOn ?_
    rwa [hfound]
  obtain ⟨x, hx, hs⟩ := hsurj (Network.mem_sides (s := (d, b)).2 harcs)
  have hbalanced := hσ.balanced x hx
  rwa [hs] at hbalanced

end Counts

/-! ### Completed counts -/

namespace Network

variable {n m : ℕ} {g : Network n m} {c c' : Counts n m}

/-- If all blocks but one are left and all blocks but one are entered, all sides but two have
arcs. -/
theorem card_sides {outer : Direction → Fin n} (h : ∀ d b, (g.side d b).Nonempty ↔ b ≠ outer d) :
    g.sides.card + 2 = 2 * n := by
  have hinj : Function.Injective fun d => (d, outer d) := fun d d' hd => congrArg Prod.fst hd
  have hsides : g.sides = (Finset.univ.map ⟨fun d => (d, outer d), hinj⟩)ᶜ := by
    ext ⟨d, b⟩
    rw [mem_sides, h, Finset.mem_compl, Finset.mem_map]
    refine not_congr ⟨fun hb => ⟨d, Finset.mem_univ d, Prod.ext rfl hb.symm⟩, ?_⟩
    rintro ⟨d', -, hd'⟩
    obtain ⟨rfl, rfl⟩ := Prod.mk.inj hd'
    rfl
  have hall : Fintype.card (Direction × Fin n) = 2 * n := by
    rw [Fintype.card_prod, Fintype.card_fin]
    rfl
  have hcompl := Finset.card_compl_add_card (Finset.univ.map ⟨fun d => (d, outer d), hinj⟩)
  rwa [← hsides, hall, Finset.card_map] at hcompl

/-- Every count that was completed is backed by a side of its own that has arcs and is balanced in
the end. So if there were as many sides with arcs as missing counts, all of them are balanced. This
is so if all blocks but one are left, all blocks but one are entered, and the counts of all blocks
and of all but two as many arcs were missing. -/
theorem complete_backed (g : Network n m) (c c' : Counts n m) (h : g.complete c = .ok () c') :
    (∃ σ : c.missing ↪ g.sides, ∀ x, c'.Balanced g (σ x).1.1 (σ x).1.2) ∧
      (g.sides.card = c.missing.card → ∀ d b, (g.side d b).Nonempty → c'.Balanced g d b) ∧
      ∀ outer : Direction → Fin n, (∀ d b, (g.side d b).Nonempty ↔ b ≠ outer d) →
        c.unknownBlocks = n → c.unknownArcs + 2 = n →
          ∀ d b, (g.side d b).Nonempty → c'.Balanced g d b := by
  obtain ⟨hentails, hmissing⟩ := complete_eq_ok h
  refine ⟨?_, fun hcard d b harcs => ?_, fun outer hsides hblocks hopen d b harcs => ?_⟩
  · obtain ⟨σ, hσ⟩ := hentails.exists_backedBy
    have hfound (x : c.missing) : (x : Element n m) ∈ c.found c' := by
      rw [Counts.found_of_missing_eq_empty hmissing]
      exact x.2
    refine ⟨⟨fun x => ⟨σ x, hσ.mem_sides x (hfound x)⟩, fun x y hxy => Subtype.ext ?_⟩,
      fun x => hσ.balanced x (hfound x)⟩
    exact hσ.injOn (hfound x) (hfound y) (congrArg Subtype.val hxy)
  · exact hentails.balanced_of_card_le hmissing hcard.le harcs
  · refine hentails.balanced_of_card_le hmissing ?_ harcs
    have := card_sides hsides
    rw [Counts.card_missing, hblocks]
    omega

/-- A block that returns to itself, between entry and exit. Two of the three arcs are counted, so
there is no spare side, and the counts conserve flow in the end. -/
theorem complete_backed_loop :
    let g : Network 3 3 := #v[⟨0, 1⟩, ⟨1, 1⟩, ⟨1, 2⟩]
    let c : Counts 3 3 := ⟨#v[none, none, none], #v[some 1, some 4, none]⟩
    let c' : Counts 3 3 := ⟨#v[some 1, some 5, some 1], #v[some 1, some 4, some 1]⟩
    g.complete c = .ok () c' ∧ g.sides.card = c.missing.card ∧
      (∃ σ : c.missing ↪ g.sides, ∀ x, c'.Balanced g (σ x).1.1 (σ x).1.2) ∧
      ∀ d b, (g.side d b).Nonempty → c'.Balanced g d b := by
  intro g c c'
  have hend : g.complete c = .ok () c' := by cbv
  have hcard : g.sides.card = c.missing.card := by decide
  have hbacked := complete_backed g c c' hend
  exact ⟨hend, hcard, hbacked.1, hbacked.2.1 hcard⟩

end Network

end CoverageFlow
