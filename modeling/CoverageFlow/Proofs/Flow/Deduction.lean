import CoverageFlow.Proofs.Flow.Assignment

/-!
# Deducing counts

The two rules by which counts are completed are one: where exactly one count on a side with arcs
is missing, be it that of the block or that of an arc, it gets the value that balances the side.
What follows from known counts in this way is independent of any order of work, of queues and of
tallies.

A deduced count is forced. So an assignment that conserves flow and has the known counts has every
deduced one, and an assignment that conserves flow and vanishes on the known counts vanishes on
every deduced one.

## Main definitions

* `Counts.Deduction`, `Counts.Entails`: one deduced count, and any number of them.
* `Counts.Saturated`: no side has exactly one missing count.
* `Counts.Clash`: a side of a block carries more than the block, or more than any count.

## Main results

* `Counts.Entails.extends_assignment`, `Counts.Entails.vanishesOn`: deduced counts are forced.
* `Counts.Saturated.eq_of_entails`: nothing is deduced from saturated counts.
* `Assignment.Extends.not_clash`: counts of an assignment that conserves flow never clash.
-/

namespace CoverageFlow

variable {n m : ℕ} {g : Network n m} {c c' : Counts n m} {d : Direction} {b : Fin n}
  {x : Element n m} {i : Fin m} {count : Count}

namespace Counts

/-! ### Balanced sides -/

/-- What a count adds to a sum, which is nothing if it is missing. -/
def amount : Option Count → ℕ
  | none => 0
  | some count => count.toNat

/-- The counts as an assignment, which is zero where a count is missing. -/
def value (c : Counts n m) : Assignment ℕ n m := fun x => amount (c.of x)

theorem value_eq (h : c.of x = some count) : c.value x = count.toNat := by
  rw [value, h]
  rfl

theorem value_eq_zero (h : c.of x = none) : c.value x = 0 := by
  rw [value, h]
  rfl

theorem value_le_max (c : Counts n m) (x : Element n m) : c.value x ≤ Count.max.toNat := by
  rcases hx : c.of x with - | count
  · rw [value_eq_zero hx]
    exact Nat.zero_le _
  · rw [value_eq hx, Count.toNat_max]
    exact Nat.le_sub_one_of_lt count.toNat_lt_size

theorem Extends.value_eq (h : c'.Extends c) (hx : c.of x ≠ none) : c'.value x = c.value x := by
  obtain ⟨count, hcount⟩ := Option.ne_none_iff_exists'.1 hx
  rw [Counts.value_eq hcount, Counts.value_eq (h x count hcount)]

/-- Every count on a side is known, and that of the block is the sum of the others. -/
structure Balanced (c : Counts n m) (g : Network n m) (d : Direction) (b : Fin n) : Prop where
  known : ∀ x ∈ g.members d b, c.of x ≠ none
  balance : c.value.BalancedAt g d b

theorem Extends.of_ne_none (h : c'.Extends c) (hx : c.of x ≠ none) : c'.of x ≠ none := by
  obtain ⟨count, hcount⟩ := Option.ne_none_iff_exists'.1 hx
  rw [h x count hcount]
  exact Option.some_ne_none count

/-- A balanced side stays balanced when more counts become known. -/
theorem Balanced.mono (hb : c.Balanced g d b) (h : c'.Extends c) : c'.Balanced g d b where
  known x hx := h.of_ne_none (hb.known x hx)
  balance := hb.balance.congr fun x hx => (h.value_eq (hb.known x hx)).symm

/-! ### Deductions -/

/-- One missing count is deduced: it lies on a side that has arcs, and balances that side, of
which every other count is known. -/
inductive Deduction (g : Network n m) (c : Counts n m) : Counts n m → Prop
  | find {d : Direction} {b : Fin n} {x : Element n m} {count : Count}
      (arcs : (g.side d b).Nonempty) (mem : x ∈ g.members d b) (missing : c.of x = none)
      (balanced : (c.set x count).Balanced g d b) : Deduction g c (c.set x count)

/-- `c'` is what is known after some counts were deduced from `c`, one after the other. -/
def Entails (g : Network n m) : Counts n m → Counts n m → Prop :=
  Relation.ReflTransGen (Deduction g)

theorem Deduction.extends (h : Deduction g c c') : c'.Extends c := by
  obtain ⟨-, -, hx, -⟩ := h
  exact extends_set hx _

theorem Deduction.entails (h : Deduction g c c') : Entails g c c' := Relation.ReflTransGen.single h

theorem Entails.refl (c : Counts n m) : Entails g c c := Relation.ReflTransGen.refl

theorem Entails.trans {c'' : Counts n m} (h : Entails g c c') (h' : Entails g c' c'') :
    Entails g c c'' := Relation.ReflTransGen.trans h h'

/-- Deductions change no known count. -/
theorem Entails.extends (h : Entails g c c') : c'.Extends c := by
  induction h with
  | refl => exact Extends.refl c
  | tail _ hstep ih => exact hstep.extends.trans ih

/-- A deduced count is the one that every assignment has which conserves flow and has the known
counts. -/
theorem Deduction.extends_assignment {φ : Assignment ℕ n m} (hφ : φ.Conserves g)
    (hc : φ.Extends c) (h : Deduction g c c') : φ.Extends c' := by
  cases h with
  | @find d b x count harcs hx _ hbal =>
    intro y count' hy
    by_cases hne : y = x
    · subst hne
      have hagree : φ y = (c.set y count).value y := by
        refine (hφ d b harcs).eq_of_agree hbal.balance hx fun z hz hzy => ?_
        obtain ⟨count'', hz'⟩ := Option.ne_none_iff_exists'.1 (hbal.known z hz)
        rw [value_eq hz']
        rw [of_set_of_ne c hzy] at hz'
        exact hc z count'' hz'
      rw [hagree, value_eq hy]
    · rw [of_set_of_ne c hne] at hy
      exact hc y count' hy

theorem Entails.extends_assignment {φ : Assignment ℕ n m} (hφ : φ.Conserves g) (hc : φ.Extends c)
    (h : Entails g c c') : φ.Extends c' := by
  induction h with
  | refl => exact hc
  | tail _ hstep ih => exact hstep.extends_assignment hφ ih

/-- The difference of two assignments that conserve flow and have the known counts vanishes on
every deduced count, too. -/
theorem Deduction.vanishesOn {δ : Assignment ℤ n m} (hδ : δ.Conserves g) (hc : δ.VanishesOn c)
    (h : Deduction g c c') : δ.VanishesOn c' := by
  cases h with
  | @find d b x count harcs hx _ hbal =>
    intro y hy
    by_cases hne : y = x
    · subst hne
      refine (hδ d b harcs).eq_of_agree (Assignment.zero_balancedAt g d b) hx fun z hz hzy => ?_
      have hknown := hbal.known z hz
      rw [of_set_of_ne c hzy] at hknown
      exact hc z hknown
    · rw [of_set_of_ne c hne] at hy
      exact hc y hy

theorem Entails.vanishesOn {δ : Assignment ℤ n m} (hδ : δ.Conserves g) (hc : δ.VanishesOn c)
    (h : Entails g c c') : δ.VanishesOn c' := by
  induction h with
  | refl => exact hc
  | tail _ hstep ih => exact hstep.vanishesOn hδ ih

/-! ### Open arcs of a side -/

/-- What the arcs on a side carry, as far as it is known. -/
def flow (c : Counts n m) (g : Network n m) (d : Direction) (b : Fin n) : ℕ :=
  ∑ i ∈ g.side d b, c.value (.inr i)

/-- The arcs on a side whose count is missing. -/
def openArcs (c : Counts n m) (g : Network n m) (d : Direction) (b : Fin n) : Finset (Fin m) :=
  {i ∈ g.side d b | c.arcs.get i = none}

theorem mem_openArcs : i ∈ c.openArcs g d b ↔ (g.get i).near d = b ∧ c.arcs.get i = none := by
  simp [openArcs]

theorem openArcs_setArc : (c.setArc i count).openArcs g d b = (c.openArcs g d b).erase i := by
  ext j
  rw [Finset.mem_erase, mem_openArcs, mem_openArcs, get_arcs_setArc]
  by_cases hij : i = j
  · simp [hij]
  · simp [hij, Ne.symm hij]

/-- Once its count is found, an arc adds it to what its sides carry. -/
theorem flow_setArc (hi : c.arcs.get i = none) :
    (c.setArc i count).flow g d b =
      c.flow g d b + if (g.get i).near d = b then count.toNat else 0 := by
  have hvalue (j : Fin m) : (c.setArc i count).value (.inr j) =
      c.value (.inr j) + if i = j then count.toNat else 0 := by
    simp only [value, of_inr, get_arcs_setArc]
    by_cases hij : i = j
    · subst hij
      simp [hi, amount]
    · simp [hij]
  rw [flow, flow, Finset.sum_congr rfl fun j _ => hvalue j, Finset.sum_add_distrib,
    Finset.sum_ite_eq]
  simp only [Network.mem_side]

/-- A side is balanced if all its counts are known and add up. -/
theorem balanced_iff : c.Balanced g d b ↔ c.openArcs g d b = ∅ ∧
    ∃ count, c.blocks.get b = some count ∧ count.toNat = c.flow g d b := by
  constructor
  · intro h
    obtain ⟨count, hcount⟩ := Option.ne_none_iff_exists'.1 (h.known _ Network.inl_mem_members)
    refine ⟨Finset.eq_empty_of_forall_notMem fun i hi => ?_, count, hcount, ?_⟩
    · obtain ⟨hside, hnone⟩ := mem_openArcs.1 hi
      exact h.known (.inr i) (Network.inr_mem_members.2 (Network.mem_side.2 hside)) hnone
    · rw [← value_eq hcount]
      exact h.balance
  · rintro ⟨hopen, count, hcount, hflow⟩
    refine ⟨fun x hx hnone => ?_, ?_⟩
    · rcases x with b' | i
      · obtain rfl := Network.eq_of_inl_mem_members hx
        rw [of_inl, hcount] at hnone
        cases hnone
      · have : i ∈ c.openArcs g d b :=
          mem_openArcs.2 ⟨Network.mem_side.1 (Network.inr_mem_members.1 hx), hnone⟩
        rw [hopen] at this
        exact Finset.notMem_empty i this
    · rw [Assignment.BalancedAt]
      rw [value_eq (x := .inl b) hcount, hflow]
      rfl

/-- A block gets its count from a side without open arcs. -/
theorem deduction_setBlock (hside : (g.side d b).Nonempty) (hb : c.blocks.get b = none)
    (hopen : c.openArcs g d b = ∅) (hflow : count.toNat = c.flow g d b) :
    Deduction g c (c.setBlock b count) := by
  refine .find (x := .inl b) hside Network.inl_mem_members hb
    (balanced_iff.2 ⟨hopen, count, ?_, hflow⟩)
  exact of_set_self c (.inl b) count

/-- The only open arc on a side gets the rest of the count of the block. -/
theorem deduction_setArc {rest : Count} (hopen : c.openArcs g d b = {i})
    (hb : c.blocks.get b = some count) (hflow : count.toNat = c.flow g d b + rest.toNat) :
    Deduction g c (c.setArc i rest) := by
  obtain ⟨hnear, hi⟩ := mem_openArcs.1 (hopen ▸ Finset.mem_singleton_self i)
  have hside : i ∈ g.side d b := Network.mem_side.2 hnear
  refine .find (x := .inr i) ⟨i, hside⟩ (Network.inr_mem_members.2 hside) hi
    (balanced_iff.2 ⟨?_, count, hb, ?_⟩)
  · change (c.setArc i rest).openArcs g d b = ∅
    rw [openArcs_setArc, hopen, Finset.erase_singleton]
  · change _ = (c.setArc i rest).flow g d b
    rw [flow_setArc hi, if_pos hnear, hflow]

/-! ### Where deduction ends -/

/-- The elements on a side whose count is missing. -/
def missingOn (c : Counts n m) (g : Network n m) (d : Direction) (b : Fin n) :
    Finset (Element n m) := {x ∈ g.members d b | c.of x = none}

/-- No side that has arcs lacks exactly one count, so nothing can be deduced. -/
def Saturated (c : Counts n m) (g : Network n m) : Prop :=
  ∀ d b, (g.side d b).Nonempty → (c.missingOn g d b).card ≠ 1

/-- The missing counts on a side are those of its arcs, and that of the block. -/
theorem card_missingOn : (c.missingOn g d b).card =
    (c.openArcs g d b).card + if c.blocks.get b = none then 1 else 0 := by
  have hsum : c.missingOn g d b =
      (Finset.filter (fun b => c.blocks.get b = none) {b}).disjSum (c.openArcs g d b) := by
    ext x
    rcases x with b' | i
    · simp only [missingOn, Finset.mem_filter, Network.mem_members, Network.anchor, of_inl,
        Finset.inl_mem_disjSum, Finset.mem_singleton]
    · simp only [missingOn, Finset.mem_filter, Network.mem_members, Network.anchor, of_inr,
        Finset.inr_mem_disjSum, mem_openArcs]
  rw [hsum, Finset.card_disjSum, Finset.filter_singleton, add_comm]
  split <;> rfl

/-- Deduction has ended if every block without a count has an open arc on each of its sides that
has arcs, and no block with a count has a side with exactly one open arc. -/
theorem saturated_of_openArcs
    (hblock : ∀ d b, (g.side d b).Nonempty → c.blocks.get b = none → (c.openArcs g d b).Nonempty)
    (harc : ∀ d b, c.blocks.get b ≠ none → (c.openArcs g d b).card ≠ 1) : c.Saturated g := by
  intro d b hside
  rw [card_missingOn]
  split
  · next hnone =>
    have := (hblock d b hside hnone).card_pos
    omega
  · next hsome => exact harc d b hsome

/-- In saturated counts, no side of a block with a count has exactly one open arc. -/
theorem Saturated.card_openArcs_ne_one (h : c.Saturated g) (hb : c.blocks.get b ≠ none) :
    (c.openArcs g d b).card ≠ 1 := by
  rcases (g.side d b).eq_empty_or_nonempty with hside | hside
  · rw [openArcs, hside, Finset.filter_empty, Finset.card_empty]
    exact zero_ne_one
  · have hcard := h d b hside
    rwa [card_missingOn, if_neg hb] at hcard

/-- Where no count is missing, none can be deduced. -/
theorem saturated_of_missing_eq_empty (h : c.missing = ∅) : c.Saturated g := by
  intro d b _
  have hnone : c.missingOn g d b = ∅ :=
    Finset.filter_eq_empty_iff.2 fun x _ => of_ne_none h x
  rw [hnone]
  exact zero_ne_one

theorem Saturated.not_deduction (h : c.Saturated g) : ¬ c.Deduction g c' := by
  rintro @⟨d, b, x, count, harcs, hmem, hx, hbalanced⟩
  refine h d b harcs (Finset.card_eq_one.2 ⟨x, Finset.eq_singleton_iff_unique_mem.2 ⟨?_, ?_⟩⟩)
  · exact Finset.mem_filter.2 ⟨hmem, hx⟩
  · intro y hy
    obtain ⟨hside, hnone⟩ := Finset.mem_filter.1 hy
    by_contra hne
    have hknown := hbalanced.known y hside
    rw [of_set_of_ne c hne] at hknown
    exact hknown hnone

/-- Nothing but themselves follows from saturated counts. -/
theorem Saturated.eq_of_entails (h : c.Saturated g) (hc : c.Entails g c') : c' = c := by
  rcases hc.cases_head with rfl | ⟨c₁, hstep, -⟩
  · rfl
  · exact absurd hstep h.not_deduction

/-! ### Clashes -/

/-- A side of the block carries more than any count can be, or more than the block. -/
def Clash (c : Counts n m) (g : Network n m) (b : Fin n) : Prop :=
  ∃ d, UInt64.size ≤ c.flow g d b ∨
    ∃ count, c.blocks.get b = some count ∧ count.toNat < c.flow g d b

end Counts

/-- Where no count is missing, an assignment that has the counts is their value. -/
theorem Assignment.Extends.value_eq {φ : Assignment ℕ n m} (h : φ.Extends c)
    (hc : c.missing = ∅) : c.value = φ := by
  funext x
  obtain ⟨count, hcount⟩ := Option.ne_none_iff_exists'.1 (Counts.of_ne_none hc x)
  rw [Counts.value_eq hcount, h x count hcount]

/-- Where an assignment has the known counts, a side carries at most what the assignment says. -/
theorem Assignment.Extends.value_le {φ : Assignment ℕ n m} (h : φ.Extends c) (x : Element n m) :
    c.value x ≤ φ x := by
  rcases hx : c.of x with - | count
  · rw [Counts.value_eq_zero hx]
    exact Nat.zero_le _
  · rw [Counts.value_eq hx, h x count hx]

/-- Counts of an assignment that conserves flow and stays in the range of counts never clash. -/
theorem Assignment.Extends.not_clash {φ : Assignment ℕ n m} (h : φ.Extends c)
    (hφ : φ.Conserves g) (hmax : ∀ x, φ x < UInt64.size) (b : Fin n) : ¬ c.Clash g b := by
  have hflow (d : Direction) : c.flow g d b ≤ φ (.inl b) := by
    rcases (g.side d b).eq_empty_or_nonempty with hempty | harcs
    · simp [Counts.flow, hempty]
    · rw [hφ d b harcs]
      exact Finset.sum_le_sum fun i _ => h.value_le (.inr i)
  rintro ⟨d, hlarge | ⟨count, hb, hlt⟩⟩
  · exact absurd (hflow d) (by have := hmax (.inl b); omega)
  · have := h (.inl b) count hb
    exact absurd (hflow d) (by omega)

end CoverageFlow
