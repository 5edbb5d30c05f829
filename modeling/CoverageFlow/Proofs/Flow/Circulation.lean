import CoverageFlow.Proofs.Flow.Deduction

/-!
# Circulations through missing counts

Where deduction ends with counts missing, these are not determined: there is a nonzero assignment
of integers that conserves flow and vanishes on every known count.

Every missing count lies on two sides. A side with arcs has none or at least two of them, since
otherwise one could be deduced. So there are at least as many missing counts as equations between
them. If a missing count lies on a side without arcs, which has no equation, there are more. If
not, one of the equations follows from the others: summed over all blocks, what flows out of the
blocks is what flows into them. In either case the equations leave a nonzero solution.

## Main definitions

* `Network.sides`, `Counts.openSides`: the sides with arcs, and those with missing counts.
* `Network.excess`: by how much the value of a block exceeds what a side carries.

## Main results

* `Network.sum_excess`: the total excess is the same for both directions.
* `Counts.exists_balanced_of_card_lt`: fewer equations than missing counts leave a solution.
* `Counts.Saturated.exists_circulation`: where deduction ends, missing counts are ambiguous.
-/

namespace CoverageFlow

open Finset

variable {n m : ℕ} {g : Network n m} {c : Counts n m}

namespace Network

/-- The sides that have arcs. -/
def sides (g : Network n m) : Finset (Direction × Fin n) := {s | (g.side s.1 s.2).Nonempty}

@[simp] theorem mem_sides {s : Direction × Fin n} : s ∈ g.sides ↔ (g.side s.1 s.2).Nonempty := by
  simp [sides]

/-- By how much the value of a block exceeds what each of its sides carries. -/
def excess (g : Network n m) : Assignment ℤ n m →ₗ[ℤ] (Direction × Fin n → ℤ) :=
  LinearMap.pi fun s => LinearMap.proj (.inl s.2) - ∑ i ∈ g.side s.1 s.2, LinearMap.proj (.inr i)

theorem excess_apply (δ : Assignment ℤ n m) (s : Direction × Fin n) :
    g.excess δ s = δ (.inl s.2) - ∑ i ∈ g.side s.1 s.2, δ (.inr i) := by
  simp [excess]

theorem excess_eq_zero_iff {δ : Assignment ℤ n m} {s : Direction × Fin n} :
    g.excess δ s = 0 ↔ δ.BalancedAt g s.1 s.2 := by
  rw [excess_apply, sub_eq_zero]
  rfl

/-- Every arc lies on one outgoing and on one incoming side, so the total excess is the same for
both directions. -/
theorem sum_excess (δ : Assignment ℤ n m) (d d' : Direction) :
    ∑ b, g.excess δ (d, b) = ∑ b, g.excess δ (d', b) := by
  have htotal (d : Direction) :
      ∑ b, g.excess δ (d, b) = ∑ b, δ (.inl b) - ∑ i, δ (.inr i) := by
    simp only [excess_apply, sum_sub_distrib, side]
    rw [sum_fiberwise]
  rw [htotal d, htotal d']

/-- The equation of one side follows from those of all others. -/
theorem excess_eq_zero_of_forall_ne {δ : Assignment ℤ n m} {s₀ : Direction × Fin n}
    (h : ∀ s ≠ s₀, g.excess δ s = 0) : g.excess δ s₀ = 0 := by
  have hopposite (b : Fin n) : g.excess δ (s₀.1.opposite, b) = 0 :=
    h _ fun he => s₀.1.opposite_ne (congrArg Prod.fst he)
  calc g.excess δ s₀ = ∑ b, g.excess δ (s₀.1, b) := by
        rw [sum_eq_single s₀.2 (fun b _ hb => h _ fun he => hb (congrArg Prod.snd he))
          fun hnot => absurd (mem_univ _) hnot]
    _ = ∑ b, g.excess δ (s₀.1.opposite, b) := sum_excess δ _ _
    _ = 0 := sum_eq_zero fun b _ => hopposite b

end Network

namespace Counts

/-- The sides with arcs on which counts are missing. -/
def openSides (c : Counts n m) (g : Network n m) : Finset (Direction × Fin n) :=
  {s ∈ g.sides | (c.missingOn g s.1 s.2).Nonempty}

/-- A side on which every count is known stays balanced. -/
theorem balancedAt_of_missingOn_eq_empty {δ : Assignment ℤ n m} (hδ : δ.VanishesOn c)
    {d : Direction} {b : Fin n} (h : c.missingOn g d b = ∅) : δ.BalancedAt g d b := by
  refine (Assignment.zero_balancedAt g d b).congr fun x hx => (hδ x fun hnone => ?_).symm
  have : x ∈ c.missingOn g d b := mem_filter.2 ⟨hx, hnone⟩
  rw [h] at this
  exact notMem_empty x this

/-! ### Counting missing counts -/

/-- In each direction, every missing count lies on one side. -/
theorem sum_card_missingOn (c : Counts n m) (g : Network n m) (d : Direction) :
    ∑ b, (c.missingOn g d b).card = c.missing.card := by
  rw [card_eq_sum_card_fiberwise (f := g.anchor d) (t := univ) fun x _ => mem_univ _]
  refine sum_congr rfl fun b _ => congrArg card (ext fun x => ?_)
  simp only [missingOn, mem_filter, Network.mem_members, mem_missing, and_comm]

/-- Every missing count lies on two sides. -/
theorem sum_card_missingOn_sides (c : Counts n m) (g : Network n m) :
    ∑ s : Direction × Fin n, (c.missingOn g s.1 s.2).card = 2 * c.missing.card := by
  rw [Fintype.sum_prod_type, sum_congr rfl fun d _ => sum_card_missingOn c g d, sum_const]
  rfl

/-- Where deduction ends, a side with missing counts has at least two of them. -/
theorem Saturated.two_mul_card_openSides_le (h : c.Saturated g) :
    2 * (c.openSides g).card ≤ ∑ s ∈ c.openSides g, (c.missingOn g s.1 s.2).card := by
  rw [mul_comm, ← smul_eq_mul]
  refine card_nsmul_le_sum _ _ _ fun s hs => ?_
  obtain ⟨harcs, hopen⟩ := mem_filter.1 hs
  have := h s.1 s.2 (Network.mem_sides.1 harcs)
  have := hopen.card_pos
  omega

theorem Saturated.card_openSides_le (h : c.Saturated g) :
    (c.openSides g).card ≤ c.missing.card := by
  have hsub := sum_le_univ_sum_of_nonneg (s := c.openSides g)
    (f := fun s => (c.missingOn g s.1 s.2).card) fun s => Nat.zero_le _
  rw [sum_card_missingOn_sides] at hsub
  have := h.two_mul_card_openSides_le
  omega

/-- A missing count on a side without arcs leaves fewer equations than missing counts. -/
theorem Saturated.card_openSides_lt (h : c.Saturated g) {s : Direction × Fin n}
    (hs : s ∉ g.sides) (hopen : (c.missingOn g s.1 s.2).Nonempty) :
    (c.openSides g).card < c.missing.card := by
  have hnot : s ∉ c.openSides g := fun hmem => hs (mem_filter.1 hmem).1
  have hsub : ∑ s ∈ insert s (c.openSides g), (c.missingOn g s.1 s.2).card ≤
      2 * c.missing.card := by
    rw [← sum_card_missingOn_sides c g]
    exact sum_le_univ_sum_of_nonneg fun s => Nat.zero_le _
  rw [sum_insert hnot] at hsub
  have := h.two_mul_card_openSides_le
  have := hopen.card_pos
  omega

/-! ### Solutions -/

/-- Values for the missing counts, with zero for the known ones. -/
noncomputable def extendByZero (c : Counts n m) : (c.missing → ℤ) →ₗ[ℤ] Assignment ℤ n m :=
  Function.ExtendByZero.linearMap ℤ Subtype.val

theorem extendByZero_apply (v : c.missing → ℤ) (x : c.missing) : c.extendByZero v x = v x :=
  Subtype.val_injective.extend_apply v 0 x

theorem extendByZero_vanishesOn (v : c.missing → ℤ) : (c.extendByZero v).VanishesOn c :=
  fun x hx => Function.extend_apply' v (0 : Assignment ℤ n m) x fun ⟨y, hy⟩ =>
    hx (hy ▸ mem_missing.1 y.2)

/-- Fewer equations than missing counts leave a nonzero solution. -/
theorem exists_balanced_of_card_lt {T : Finset (Direction × Fin n)}
    (h : T.card < c.missing.card) :
    ∃ δ : Assignment ℤ n m, δ ≠ 0 ∧ δ.VanishesOn c ∧ ∀ s ∈ T, δ.BalancedAt g s.1 s.2 := by
  let equations : (c.missing → ℤ) →ₗ[ℤ] (T → ℤ) :=
    LinearMap.funLeft ℤ ℤ Subtype.val ∘ₗ g.excess ∘ₗ c.extendByZero
  have hker : ¬ Function.Injective equations := fun hinj => by
    have := card_le_of_injective ℤ equations hinj
    rw [Fintype.card_coe, Fintype.card_coe] at this
    omega
  rw [← LinearMap.ker_eq_bot, Submodule.eq_bot_iff] at hker
  push Not at hker
  obtain ⟨v, hv, hne⟩ := hker
  obtain ⟨x, hx⟩ := Function.ne_iff.1 hne
  refine ⟨c.extendByZero v, fun hzero => hx ?_, extendByZero_vanishesOn v, fun s hs => ?_⟩
  · rw [← extendByZero_apply v x, hzero]
    rfl
  · exact Network.excess_eq_zero_iff.1 (congrFun (LinearMap.mem_ker.1 hv) ⟨s, hs⟩)

/-- If all missing counts lie on sides with arcs, one of the equations is superfluous. -/
theorem Saturated.exists_circulation_of_forall_mem_sides (h : c.Saturated g)
    (hmissing : c.missing.Nonempty)
    (hsides : ∀ s : Direction × Fin n, (c.missingOn g s.1 s.2).Nonempty → s ∈ g.sides) :
    ∃ δ : Assignment ℤ n m, δ ≠ 0 ∧ δ.VanishesOn c ∧ δ.Conserves g := by
  have hopen (s : Direction × Fin n) (hs : (c.missingOn g s.1 s.2).Nonempty) :
      s ∈ c.openSides g := mem_filter.2 ⟨hsides s hs, hs⟩
  obtain ⟨x, hx⟩ := hmissing
  obtain ⟨s₀, hs₀⟩ : ∃ s₀, s₀ ∈ c.openSides g :=
    ⟨(.outgoing, g.anchor .outgoing x),
      hopen _ ⟨x, mem_filter.2 ⟨Network.mem_members.2 rfl, mem_missing.1 hx⟩⟩⟩
  have hcard : ((c.openSides g).erase s₀).card < c.missing.card :=
    (card_erase_lt_of_mem hs₀).trans_le h.card_openSides_le
  obtain ⟨δ, hne, hδ, hbal⟩ := exists_balanced_of_card_lt (g := g) hcard
  have hothers (s : Direction × Fin n) (hs : s ≠ s₀) : g.excess δ s = 0 := by
    rw [Network.excess_eq_zero_iff]
    rcases (c.missingOn g s.1 s.2).eq_empty_or_nonempty with hclosed | hnonempty
    · exact balancedAt_of_missingOn_eq_empty hδ hclosed
    · exact hbal s (mem_erase.2 ⟨hs, hopen s hnonempty⟩)
  refine ⟨δ, hne, hδ, fun d b _ => ?_⟩
  have hall : g.excess δ (d, b) = 0 := by
    by_cases hs : (d, b) = s₀
    · rw [hs]
      exact Network.excess_eq_zero_of_forall_ne hothers
    · exact hothers _ hs
  exact Network.excess_eq_zero_iff.1 hall

/-- Where deduction ends with counts missing, a nonzero assignment conserves flow and vanishes on
the known counts. -/
theorem Saturated.exists_circulation (h : c.Saturated g) (hmissing : c.missing.Nonempty) :
    ∃ δ : Assignment ℤ n m, δ ≠ 0 ∧ δ.VanishesOn c ∧ δ.Conserves g := by
  by_cases hsides : ∀ s : Direction × Fin n, (c.missingOn g s.1 s.2).Nonempty → s ∈ g.sides
  · exact h.exists_circulation_of_forall_mem_sides hmissing hsides
  · push Not at hsides
    obtain ⟨s, hopen, hs⟩ := hsides
    obtain ⟨δ, hne, hδ, hbal⟩ :=
      exists_balanced_of_card_lt (g := g) (h.card_openSides_lt hs hopen)
    refine ⟨δ, hne, hδ, fun d b harcs => ?_⟩
    rcases (c.missingOn g d b).eq_empty_or_nonempty with hclosed | hnonempty
    · exact balancedAt_of_missingOn_eq_empty hδ hclosed
    · exact hbal (d, b) (mem_filter.2 ⟨Network.mem_sides.2 harcs, hnonempty⟩)

end Counts

end CoverageFlow
