import CoverageFlow.Proofs.Flow.Tally

/-!
# Sums of counts

The counts of several runs of a program are added up. A sum is known if its parts are, and it must
be a count again. Tallies add up as the counts do: a side of the sums has as many arcs as before,
lacks as many counts, and its total is the sum of the totals.

Adding an arc and settling one keep this, unless the new total is no count. Since totals only grow,
it stays too large whatever happens afterwards.

## Main definitions

* `AddUp`: a count is the sum of two others, and known if they are.
* `Counts.AddUp`, `Sides.AddUp`: the same for all counts and for all tallies.
* `Counts.Overflow`, `Sides.Overflow`: on some side, two totals together are more than any count.

## Main results

* `Sides.AddUp.settleArc`, `Sides.addUp_ofArcs`: what happens to tallies keeps them adding up.
-/

namespace CoverageFlow

variable {n m : ℕ} {g : Network n m} {d : Direction} {b : Fin n}

/-! ### Counts -/

/-- The last count is the sum of the first two, which are both known or both missing. -/
inductive AddUp : Option Count → Option Count → Option Count → Prop
  | missing : AddUp none none none
  | known {a₁ a₂ a : Count} (sum : a.toNat = a₁.toNat + a₂.toNat) :
      AddUp (some a₁) (some a₂) (some a)

namespace AddUp

variable {o₁ o₂ o : Option Count}

theorem symm (h : AddUp o₁ o₂ o) : AddUp o₂ o₁ o := by
  cases h with
  | missing => exact missing
  | known hsum => exact known (hsum.trans (add_comm _ _))

theorem isNone_eq (h : AddUp o₁ o₂ o) : o₁.isNone = o.isNone := by
  cases h <;> rfl

theorem eq_none_iff (h : AddUp o₁ o₂ o) : o₁ = none ↔ o = none := by
  rw [← Option.isNone_iff_eq_none, h.isNone_eq, Option.isNone_iff_eq_none]

theorem amount_eq (h : AddUp o₁ o₂ o) :
    Counts.amount o = Counts.amount o₁ + Counts.amount o₂ := by
  cases h with
  | missing => rfl
  | known hsum => exact hsum

end AddUp

namespace Counts

variable {c₁ c₂ c c₁' c₂' : Counts n m}

/-- All counts are the sums of two others. -/
def AddUp (c₁ c₂ c : Counts n m) : Prop := ∀ x, CoverageFlow.AddUp (c₁.of x) (c₂.of x) (c.of x)

theorem AddUp.symm (h : AddUp c₁ c₂ c) : AddUp c₂ c₁ c := fun x => (h x).symm

theorem AddUp.blocks (h : AddUp c₁ c₂ c) (b : Fin n) :
    CoverageFlow.AddUp (c₁.blocks.get b) (c₂.blocks.get b) (c.blocks.get b) := h (.inl b)

theorem AddUp.arcs (h : AddUp c₁ c₂ c) (i : Fin m) :
    CoverageFlow.AddUp (c₁.arcs.get i) (c₂.arcs.get i) (c.arcs.get i) := h (.inr i)

theorem AddUp.set (h : AddUp c₁ c₂ c) (x : Element n m) {a₁ a₂ a : Count}
    (ha : a.toNat = a₁.toNat + a₂.toNat) : AddUp (c₁.set x a₁) (c₂.set x a₂) (c.set x a) := by
  intro y
  simp only [of_set]
  split
  · exact .known ha
  · exact h y

theorem AddUp.missing_eq (h : AddUp c₁ c₂ c) : c₁.missing = c.missing := by
  ext x
  rw [mem_missing, mem_missing, (h x).eq_none_iff]

theorem AddUp.value_eq (h : AddUp c₁ c₂ c) : c.value = c₁.value + c₂.value :=
  funext fun x => (h x).amount_eq

/-- Where more counts are known, a side carries more. -/
theorem Extends.flow_le (h : c₁'.Extends c₁) (g : Network n m) (d : Direction) (b : Fin n) :
    c₁.flow g d b ≤ c₁'.flow g d b := by
  refine Finset.sum_le_sum fun i _ => ?_
  rcases hi : c₁.of (.inr i) with - | count
  · rw [value_eq_zero hi]
    exact Nat.zero_le _
  · rw [h.value_eq (by rw [hi]; exact Option.some_ne_none count)]

/-- On some side, what two counts carry together is more than any count can be. -/
def Overflow (g : Network n m) (c₁ c₂ : Counts n m) : Prop :=
  ∃ d b, UInt64.size ≤ c₁.flow g d b + c₂.flow g d b

theorem not_overflow_iff :
    ¬ Overflow g c₁ c₂ ↔ ∀ d b, c₁.flow g d b + c₂.flow g d b ≤ Count.max.toNat := by
  simp only [Overflow, not_exists, not_le]
  exact forall₂_congr fun d b => Nat.lt_succ_iff

theorem Overflow.mono (h : Overflow g c₁ c₂) (h₁ : c₁'.Extends c₁) (h₂ : c₂'.Extends c₂) :
    Overflow g c₁' c₂' := by
  obtain ⟨d, b, hlarge⟩ := h
  exact ⟨d, b, hlarge.trans (Nat.add_le_add (h₁.flow_le g d b) (h₂.flow_le g d b))⟩

end Counts

/-! ### Tallies -/

namespace Side

variable {t₁ t₂ t t₁' t₂' : Side}

/-- A side has as many arcs as two others, lacks as many counts, and has the sum of their totals. -/
structure AddUp (t₁ t₂ t : Side) : Prop where
  arcs_left : t₁.arcs = t.arcs
  arcs_right : t₂.arcs = t.arcs
  unknown_left : t₁.unknown = t.unknown
  unknown_right : t₂.unknown = t.unknown
  total : t.total.toNat = t₁.total.toNat + t₂.total.toNat

/-- The totals of two sides together are more than any count can be. -/
def Overflow (t₁ t₂ : Side) : Prop := UInt64.size ≤ t₁.total.toNat + t₂.total.toNat

/-- A side that may have been refused adds up, or was refused since the totals are too large. -/
def SumOrOverflow (t₁ t₂ : Side) : Option Side → Prop
  | some t => t₁.AddUp t₂ t
  | none => t₁.Overflow t₂

theorem AddUp.symm (h : t₁.AddUp t₂ t) : t₂.AddUp t₁ t :=
  ⟨h.arcs_right, h.arcs_left, h.unknown_right, h.unknown_left, h.total.trans (add_comm _ _)⟩

theorem AddUp.implied? (h : t₁.AddUp t₂ t) :
    CoverageFlow.AddUp t₁.implied? t₂.implied? t.implied? := by
  simp only [Side.implied?, h.arcs_left, h.arcs_right, h.unknown_left, h.unknown_right]
  split
  · exact .known h.total
  · exact .missing

/-- Sides that add up still do with one more arc each, unless the sum becomes too large. -/
theorem AddUp.add? (h : t₁.AddUp t₂ t) {o₁ o₂ o : Option Count} (ho : CoverageFlow.AddUp o₁ o₂ o)
    (h₁ : t₁.add? o₁ = some t₁') (h₂ : t₂.add? o₂ = some t₂') :
    t₁'.SumOrOverflow t₂' (t.add? o) := by
  obtain ⟨harcs₁, hunknown₁, htotal₁⟩ := add?_eq_some h₁
  obtain ⟨harcs₂, hunknown₂, htotal₂⟩ := add?_eq_some h₂
  rcases hadd : t.add? o with - | t'
  · have hlarge := add?_eq_none hadd
    rw [h.total, ho.amount_eq] at hlarge
    rw [SumOrOverflow, Overflow, htotal₁, htotal₂]
    omega
  · obtain ⟨harcs, hunknown, htotal⟩ := add?_eq_some hadd
    rw [h.total, ho.amount_eq] at htotal
    simp only [ho.eq_none_iff] at hunknown₁
    simp only [ho.symm.eq_none_iff] at hunknown₂
    exact ⟨by rw [harcs₁, harcs, h.arcs_left], by rw [harcs₂, harcs, h.arcs_right],
      by rw [hunknown₁, hunknown, h.unknown_left], by rw [hunknown₂, hunknown, h.unknown_right],
      by omega⟩

/-- Sides that add up still do after a count of each was found, unless the sum becomes too
large. -/
theorem AddUp.settle? (h : t₁.AddUp t₂ t) {a₁ a₂ a : Count} (ha : a.toNat = a₁.toNat + a₂.toNat)
    (h₁ : t₁.settle? a₁ = some t₁') (h₂ : t₂.settle? a₂ = some t₂') :
    t₁'.SumOrOverflow t₂' (t.settle? a) := by
  obtain ⟨harcs₁, hunknown₁, htotal₁⟩ := settle?_eq_some h₁
  obtain ⟨harcs₂, hunknown₂, htotal₂⟩ := settle?_eq_some h₂
  rcases hsettle : t.settle? a with - | t'
  · have hlarge := settle?_eq_none hsettle
    rw [h.total, ha] at hlarge
    rw [SumOrOverflow, Overflow, htotal₁, htotal₂]
    omega
  · obtain ⟨harcs, hunknown, htotal⟩ := settle?_eq_some hsettle
    rw [h.total, ha] at htotal
    exact ⟨by rw [harcs₁, harcs, h.arcs_left], by rw [harcs₂, harcs, h.arcs_right],
      by rw [hunknown₁, hunknown, h.unknown_left], by rw [hunknown₂, hunknown, h.unknown_right],
      by omega⟩

end Side

namespace Sides

variable {s₁ s₂ s s₁' s₂' s' : Sides n}

/-- All tallies add up. -/
def AddUp (s₁ s₂ s : Sides n) : Prop := ∀ d b, (s₁.side d b).AddUp (s₂.side d b) (s.side d b)

/-- The totals of some side together are more than any count can be. -/
def Overflow (s₁ s₂ : Sides n) : Prop := ∃ d b, (s₁.side d b).Overflow (s₂.side d b)

/-- Tallies that may have been refused add up, or were refused since a total is too large. -/
def SumOrOverflow (s₁ s₂ : Sides n) : Except (Fin n) (Sides n) → Prop
  | .ok s => s₁.AddUp s₂ s
  | .error _ => s₁.Overflow s₂

/-- No total becomes smaller. -/
def Grows (s s' : Sides n) : Prop := ∀ d b, (s.side d b).total.toNat ≤ (s'.side d b).total.toNat

theorem Grows.refl (s : Sides n) : s.Grows s := fun _ _ => le_rfl

theorem Grows.trans {s'' : Sides n} (h : s.Grows s') (h' : s'.Grows s'') : s.Grows s'' :=
  fun d b => (h d b).trans (h' d b)

theorem AddUp.symm (h : s₁.AddUp s₂ s) : s₂.AddUp s₁ s := fun d b => (h d b).symm

theorem Overflow.mono (h : s₁.Overflow s₂) (h₁ : s₁.Grows s₁') (h₂ : s₂.Grows s₂') :
    s₁'.Overflow s₂' := by
  obtain ⟨d, b, hlarge⟩ := h
  exact ⟨d, b, hlarge.trans (Nat.add_le_add (h₁ d b) (h₂ d b))⟩

/-- The totals of right tallies are what the sides carry. -/
theorem Tallies.overflow_iff {c₁ c₂ : Counts n m} (h₁ : s₁.Tallies c₁ g) (h₂ : s₂.Tallies c₂ g) :
    s₁.Overflow s₂ ↔ Counts.Overflow g c₁ c₂ := by
  simp only [Overflow, Side.Overflow, Counts.Overflow, (h₁ _ _).total, (h₂ _ _).total]

/-- No total exceeds all counts, so tallies of which there is a sum do not overflow. -/
theorem AddUp.not_overflow (h : s₁.AddUp s₂ s) : ¬ s₁.Overflow s₂ := by
  rintro ⟨d, b, hlarge⟩
  rw [Side.Overflow, ← (h d b).total] at hlarge
  exact absurd (s.side d b).total.toNat_lt_size (Nat.not_lt_of_le hlarge)

theorem updateEnds_grows {e : Ends n} {change : Side → Option Side}
    (hchange : ∀ t t', change t = some t' → t.total.toNat ≤ t'.total.toNat)
    (h : s.updateEnds e d change = .ok s') : s.Grows s' := by
  intro d' b
  have hside := updateEnds_eq_ok h d' b
  split at hside
  · exact hchange _ _ hside
  · rw [hside]

/-- Tallies that add up still do after those of an arc were changed alike, unless a total becomes
too large. -/
theorem AddUp.updateEnds (h : s₁.AddUp s₂ s) {e : Ends n}
    {change₁ change₂ change : Side → Option Side}
    (hchange : ∀ {t₁ t₂ t t₁' t₂' : Side}, t₁.AddUp t₂ t → change₁ t₁ = some t₁' →
      change₂ t₂ = some t₂' → t₁'.SumOrOverflow t₂' (change t))
    (h₁ : s₁.updateEnds e d change₁ = .ok s₁') (h₂ : s₂.updateEnds e d change₂ = .ok s₂') :
    s₁'.SumOrOverflow s₂' (s.updateEnds e d change) := by
  have hchanged {d' : Direction} {b : Fin n} (hb : e.near d' = b) :
      (s₁'.side d' b).SumOrOverflow (s₂'.side d' b) (change (s.side d' b)) := by
    have hside₁ := updateEnds_eq_ok h₁ d' b
    have hside₂ := updateEnds_eq_ok h₂ d' b
    rw [if_pos hb] at hside₁ hside₂
    exact hchange (h d' b) hside₁ hside₂
  rcases hupdate : s.updateEnds e d change with b | s'
  · obtain ⟨d', hb, hnone⟩ := updateEnds_eq_error hupdate
    have hlarge := hchanged hb
    rw [hnone] at hlarge
    exact ⟨d', b, hlarge⟩
  · intro d' b
    have hside := updateEnds_eq_ok hupdate d' b
    split at hside
    · next hb =>
      have hsum := hchanged hb
      rwa [hside] at hsum
    · next hb =>
      have hside₁ := updateEnds_eq_ok h₁ d' b
      have hside₂ := updateEnds_eq_ok h₂ d' b
      rw [if_neg hb] at hside₁ hside₂
      rw [hside, hside₁, hside₂]
      exact h d' b

theorem settleArc_grows {e : Ends n} {count : Count} (h : s.settleArc e d count = .ok s') :
    s.Grows s' :=
  updateEnds_grows (fun _ _ ht => (Side.settle?_eq_some ht).2.2.ge.trans' (Nat.le_add_right _ _)) h

theorem AddUp.settleArc (h : s₁.AddUp s₂ s) {e : Ends n} {a₁ a₂ a : Count}
    (ha : a.toNat = a₁.toNat + a₂.toNat) (h₁ : s₁.settleArc e d a₁ = .ok s₁')
    (h₂ : s₂.settleArc e d a₂ = .ok s₂') : s₁'.SumOrOverflow s₂' (s.settleArc e d a) :=
  h.updateEnds (fun ht ht₁ ht₂ => ht.settle? ha ht₁ ht₂) h₁ h₂

theorem adjoin_grows {a : Ends n × Option Count} (h : s.adjoin a = .ok s') : s.Grows s' :=
  updateEnds_grows (fun _ _ ht => (Side.add?_eq_some ht).2.2.ge.trans' (Nat.le_add_right _ _)) h

theorem foldlM_adjoin_grows {l : List (Ends n × Option Count)} (h : l.foldlM adjoin s = .ok s') :
    s.Grows s' := by
  induction l generalizing s with
  | nil =>
    obtain rfl := Except.ok.inj h
    exact .refl s
  | cons a l ih =>
    rw [List.foldlM_cons] at h
    rcases hfirst : s.adjoin a with b' | s''
    · rw [hfirst] at h
      cases h
    · rw [hfirst] at h
      exact (adjoin_grows hfirst).trans (ih h)

/-- Tallies that add up still do after the arcs of a network were added, unless a total becomes too
large. -/
theorem AddUp.foldlM_adjoin {c₁ c₂ c : Counts n m} (hc : c₁.AddUp c₂ c) {is : List (Fin m)}
    (h : s₁.AddUp s₂ s)
    (h₁ : (is.map fun i => (g.get i, c₁.arcs.get i)).foldlM adjoin s₁ = .ok s₁')
    (h₂ : (is.map fun i => (g.get i, c₂.arcs.get i)).foldlM adjoin s₂ = .ok s₂') :
    s₁'.SumOrOverflow s₂' ((is.map fun i => (g.get i, c.arcs.get i)).foldlM adjoin s) := by
  induction is generalizing s₁ s₂ s with
  | nil =>
    obtain rfl := Except.ok.inj h₁
    obtain rfl := Except.ok.inj h₂
    exact h
  | cons i is ih =>
    rw [List.map_cons, List.foldlM_cons] at h₁ h₂ ⊢
    rcases hfirst₁ : s₁.adjoin (g.get i, c₁.arcs.get i) with b | t₁
    · rw [hfirst₁] at h₁
      cases h₁
    rcases hfirst₂ : s₂.adjoin (g.get i, c₂.arcs.get i) with b | t₂
    · rw [hfirst₂] at h₂
      cases h₂
    rw [hfirst₁] at h₁
    rw [hfirst₂] at h₂
    have hfirst : t₁.SumOrOverflow t₂ (s.adjoin (g.get i, c.arcs.get i)) :=
      h.updateEnds (fun ht ht₁ ht₂ => ht.add? (hc.arcs i) ht₁ ht₂) hfirst₁ hfirst₂
    rcases hadjoin : s.adjoin (g.get i, c.arcs.get i) with b | t
    · rw [hadjoin] at hfirst
      exact hfirst.mono (foldlM_adjoin_grows h₁) (foldlM_adjoin_grows h₂)
    · rw [hadjoin] at hfirst
      exact ih hfirst h₁ h₂

theorem addUp_empty : (empty : Sides n).AddUp empty empty := fun d b => by
  rw [side_empty]
  exact ⟨rfl, rfl, rfl, rfl, rfl⟩

/-- The first tallies of a network add up if its counts do, unless a total is too large. -/
theorem addUp_ofArcs {c₁ c₂ c : Counts n m} (hc : c₁.AddUp c₂ c) (h₁ : ofArcs g c₁.arcs = .ok s₁)
    (h₂ : ofArcs g c₂.arcs = .ok s₂) : s₁.SumOrOverflow s₂ (ofArcs g c.arcs) := by
  rw [ofArcs, zip_toList] at h₁ h₂ ⊢
  exact addUp_empty.foldlM_adjoin hc h₁ h₂

end Sides

end CoverageFlow
