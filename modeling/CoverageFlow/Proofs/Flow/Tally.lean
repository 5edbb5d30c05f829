import CoverageFlow.Flow.Side
import CoverageFlow.Proofs.Flow.Deduction

/-!
# The tallies of the sides

The solver does not count and add up the arcs of a side whenever it needs to. It keeps a tally for
each side, built arc by arc and changed whenever the count of an arc is found. A tally is right if
it has the number of arcs, the number of missing counts and the sum of the other counts.

An arc changes two tallies, one for each direction. They are different even if the arc returns to
the block it leaves. So building the tallies and settling an arc are one operation,
`Sides.updateEnds`, with different changes to a tally.

## Main definitions

* `Side.Tallies`, `Sides.Tallies`: the tally of a side is right, and all tallies are.

## Main results

* `Sides.tallies_of_ofArcs`, `Sides.exists_ofArcs_iff`: the first tallies are right, and refused
  exactly if a side carries more than any count can be.
* `Sides.Tallies.settleArc`, `Sides.Tallies.clash_of_settleArc`: the same when a count is found.
-/

namespace CoverageFlow

open Finset

variable {n m : ℕ} {g : Network n m} {c : Counts n m} {d : Direction} {b : Fin n} {i : Fin m}
  {count : Count}

/-! ### Single tallies -/

/-- The tally of a side is right. -/
structure Side.Tallies (t : Side) (c : Counts n m) (g : Network n m) (d : Direction)
    (b : Fin n) : Prop where
  arcs : t.arcs = (g.side d b).card
  unknown : t.unknown = (c.openArcs g d b).card
  total : t.total.toNat = c.flow g d b

/-- The counts of a network determine its tallies. -/
theorem Side.Tallies.unique {t t' : Side} (h : t.Tallies c g d b) (h' : t'.Tallies c g d b) :
    t = t' := by
  obtain ⟨arcs, unknown, total⟩ := t
  obtain ⟨arcs', unknown', total'⟩ := t'
  obtain rfl : arcs = arcs' := h.arcs.trans h'.arcs.symm
  obtain rfl : unknown = unknown' := h.unknown.trans h'.unknown.symm
  obtain rfl : total = total' := UInt64.toNat_inj.1 (h.total.trans h'.total.symm)
  rfl

/-- `t'` is the tally `t` of a side after it took in those of the given arcs that lie on it. -/
structure Side.TakesIn (t t' : Side) (d : Direction) (b : Fin n)
    (l : List (Ends n × Option Count)) : Prop where
  arcs : t'.arcs = t.arcs + l.countP fun a => a.1.near d = b
  unknown : t'.unknown = t.unknown + l.countP fun a => a.1.near d = b ∧ a.2 = none
  total : t'.total.toNat =
    t.total.toNat + ((l.filter fun a => a.1.near d = b).map fun a => Counts.amount a.2).sum

namespace Side

variable {t t' t'' : Side}

theorem TakesIn.append {l l' : List (Ends n × Option Count)} (h : t.TakesIn t' d b l)
    (h' : t'.TakesIn t'' d b l') : t.TakesIn t'' d b (l ++ l') where
  arcs := by rw [h'.arcs, h.arcs, List.countP_append, add_assoc]
  unknown := by rw [h'.unknown, h.unknown, List.countP_append, add_assoc]
  total := by
    rw [h'.total, h.total, List.filter_append, List.map_append, List.sum_append, add_assoc]

theorem add?_eq_some {count : Option Count} (h : t.add? count = some t') :
    t'.arcs = t.arcs + 1 ∧ t'.unknown = t.unknown + (if count = none then 1 else 0) ∧
      t'.total.toNat = t.total.toNat + Counts.amount count := by
  rcases count with - | count
  · obtain rfl := Option.some.inj h
    exact ⟨rfl, rfl, rfl⟩
  · obtain ⟨total, htotal, rfl⟩ := Option.map_eq_some_iff.1 h
    exact ⟨rfl, rfl, Count.add?_eq_some_iff.1 htotal⟩

theorem add?_eq_none {count : Option Count} (h : t.add? count = none) :
    UInt64.size ≤ t.total.toNat + Counts.amount count := by
  rcases count with - | count
  · cases h
  · exact Count.add?_eq_none_iff.1 (Option.map_eq_none_iff.1 h)

theorem settle?_eq_some (h : t.settle? count = some t') :
    t'.arcs = t.arcs ∧ t'.unknown = t.unknown - 1 ∧
      t'.total.toNat = t.total.toNat + count.toNat := by
  obtain ⟨total, htotal, rfl⟩ := Option.map_eq_some_iff.1 h
  exact ⟨rfl, rfl, Count.add?_eq_some_iff.1 htotal⟩

theorem settle?_eq_none (h : t.settle? count = none) :
    UInt64.size ≤ t.total.toNat + count.toNat :=
  Count.add?_eq_none_iff.1 (Option.map_eq_none_iff.1 h)

end Side

/-! ### All tallies -/

namespace Sides

variable {s s' : Sides n}

/-- All tallies are right. -/
def Tallies (s : Sides n) (c : Counts n m) (g : Network n m) : Prop :=
  ∀ d b, (s.side d b).Tallies c g d b

/-- Tallies are equal if those of every side are. -/
theorem ext_side (h : ∀ d b, s.side d b = s'.side d b) : s = s' := by
  obtain ⟨outgoing, incoming⟩ := s
  obtain ⟨outgoing', incoming'⟩ := s'
  obtain rfl : outgoing = outgoing' := Vector.ext fun k hk => h .outgoing ⟨k, hk⟩
  obtain rfl : incoming = incoming' := Vector.ext fun k hk => h .incoming ⟨k, hk⟩
  rfl

theorem Tallies.unique (h : s.Tallies c g) (h' : s'.Tallies c g) : s = s' :=
  ext_side fun d b => (h d b).unique (h' d b)

/-- Changes the tallies of both sides on which an arc lies, that of direction `d` first. -/
def updateEnds (s : Sides n) (e : Ends n) (d : Direction) (change : Side → Option Side) :
    Except (Fin n) (Sides n) := do
  let s ← s.update d (e.near d) change
  s.update d.opposite (e.far d) change

theorem adjoin_eq_updateEnds (s : Sides n) (a : Ends n × Option Count) :
    s.adjoin a = s.updateEnds a.1 .outgoing (·.add? a.2) := rfl

theorem settleArc_eq_updateEnds (s : Sides n) (e : Ends n) (d : Direction) (count : Count) :
    s.settleArc e d count = s.updateEnds e d (·.settle? count) := rfl

theorem update_eq_ok {change : Side → Option Side} (h : s.update d b change = .ok s') :
    ∃ new, change (s.side d b) = some new ∧ s' = s.set d b new := by
  rw [update] at h
  split at h
  · next new hnew => exact ⟨new, hnew, (Except.ok.inj h).symm⟩
  · cases h

theorem update_eq_error {change : Side → Option Side} {b' : Fin n}
    (h : s.update d b change = .error b') : b = b' ∧ change (s.side d b) = none := by
  rw [update] at h
  split at h
  · cases h
  · next hnone => exact ⟨Except.error.inj h, hnone⟩

theorem side_set_self (s : Sides n) (d : Direction) (b b' : Fin n) (new : Side) :
    (s.set d b new).side d b' = if b = b' then new else s.side d b' := by
  simp only [side_set, true_and]

theorem side_set_of_ne (s : Sides n) {d d' : Direction} (h : d' ≠ d) (b b' : Fin n) (new : Side) :
    (s.set d b new).side d' b' = s.side d' b' := by
  rw [side_set, if_neg fun he => h he.1.symm]

/-- Changing the tallies of an arc changes no other tallies. -/
theorem updateEnds_eq_ok {e : Ends n} {change : Side → Option Side}
    (h : s.updateEnds e d change = .ok s') (d' : Direction) (b : Fin n) :
    if e.near d' = b then change (s.side d' b) = some (s'.side d' b)
    else s'.side d' b = s.side d' b := by
  rcases hfirst : s.update d (e.near d) change with b' | s₁
  · rw [updateEnds, hfirst] at h
    cases h
  rw [updateEnds, hfirst] at h
  obtain ⟨near, hnear, rfl⟩ := update_eq_ok hfirst
  obtain ⟨far, hfar, rfl⟩ := update_eq_ok h
  rw [side_set_of_ne s d.opposite_ne] at hfar
  rcases d.eq_or_eq_opposite d' with rfl | rfl
  · rw [side_set_of_ne _ d'.opposite_ne.symm, side_set_self]
    split
    · next hb => rw [← hb, hnear]
    · rfl
  · rw [side_set_self, side_set_of_ne s d.opposite_ne]
    change if e.far d = b then _ else _
    split
    · next hb => rw [← hb, hfar]
    · rfl

/-- Changing the tallies of an arc fails at a block on whose side the arc lies. -/
theorem updateEnds_eq_error {e : Ends n} {change : Side → Option Side}
    (h : s.updateEnds e d change = .error b) :
    ∃ d', e.near d' = b ∧ change (s.side d' b) = none := by
  rcases hfirst : s.update d (e.near d) change with b' | s₁
  · rw [updateEnds, hfirst] at h
    obtain rfl := Except.error.inj h
    obtain ⟨rfl, hnone⟩ := update_eq_error hfirst
    exact ⟨d, rfl, hnone⟩
  · rw [updateEnds, hfirst] at h
    obtain ⟨near, -, rfl⟩ := update_eq_ok hfirst
    obtain ⟨rfl, hnone⟩ := update_eq_error h
    rw [side_set_of_ne s d.opposite_ne] at hnone
    exact ⟨d.opposite, rfl, hnone⟩

/-! ### The first tallies -/

theorem adjoin_eq_ok {a : Ends n × Option Count} (h : s.adjoin a = .ok s') (d : Direction)
    (b : Fin n) : (s.side d b).TakesIn (s'.side d b) d b [a] := by
  rw [adjoin_eq_updateEnds] at h
  have hside := updateEnds_eq_ok h d b
  by_cases hb : a.1.near d = b
  · rw [if_pos hb] at hside
    obtain ⟨harcs, hunknown, htotal⟩ := Side.add?_eq_some hside
    exact ⟨by simpa [hb] using harcs, by simpa [hb, List.countP_cons] using hunknown,
      by simpa [hb] using htotal⟩
  · rw [if_neg hb] at hside
    rw [hside]
    exact ⟨by simp [hb], by simp [hb], by simp [hb]⟩

theorem foldlM_adjoin_eq_ok {l : List (Ends n × Option Count)} (h : l.foldlM adjoin s = .ok s')
    (d : Direction) (b : Fin n) : (s.side d b).TakesIn (s'.side d b) d b l := by
  induction l generalizing s with
  | nil =>
    obtain rfl := Except.ok.inj h
    exact ⟨rfl, rfl, rfl⟩
  | cons a l ih =>
    rcases hfirst : s.adjoin a with b' | s₁
    · rw [List.foldlM_cons, hfirst] at h
      cases h
    · rw [List.foldlM_cons, hfirst] at h
      exact (adjoin_eq_ok hfirst d b).append (ih h)

/-- The tallies are refused only if a side carries more than any count can be. -/
theorem foldlM_adjoin_eq_error {l : List (Ends n × Option Count)}
    (h : l.foldlM adjoin s = .error b) :
    ∃ d, UInt64.size ≤ (s.side d b).total.toNat +
      ((l.filter fun a => a.1.near d = b).map fun a => Counts.amount a.2).sum := by
  induction l generalizing s with
  | nil => cases h
  | cons a l ih =>
    rcases hfirst : s.adjoin a with b' | s₁
    · rw [List.foldlM_cons, hfirst] at h
      obtain rfl := Except.error.inj h
      rw [adjoin_eq_updateEnds] at hfirst
      obtain ⟨d, rfl, hnone⟩ := updateEnds_eq_error hfirst
      refine ⟨d, (Side.add?_eq_none hnone).trans ?_⟩
      simp
    · rw [List.foldlM_cons, hfirst] at h
      obtain ⟨d, hd⟩ := ih h
      refine ⟨d, hd.trans_eq ?_⟩
      rw [(adjoin_eq_ok hfirst d b).total, add_assoc, ← List.sum_append, ← List.map_append,
        ← List.filter_append, List.singleton_append]

/-- The arcs of a network with their counts. -/
theorem zip_toList (g : Network n m) (counts : Vector (Option Count) m) :
    g.toList.zip counts.toList = (List.finRange m).map fun i => (g.get i, counts.get i) := by
  rw [toList_eq_map_get, toList_eq_map_get, List.zip_map']

theorem takesIn_zip_iff {t t' : Side} :
    t.TakesIn t' d b (g.toList.zip c.arcs.toList) ↔
      t'.arcs = t.arcs + (g.side d b).card ∧ t'.unknown = t.unknown + (c.openArcs g d b).card ∧
        t'.total.toNat = t.total.toNat + c.flow g d b := by
  have harcs : ((g.toList.zip c.arcs.toList).countP fun a => a.1.near d = b) =
      (g.side d b).card := by
    rw [zip_toList, List.countP_map, List.countP_eq_length_filter]
    rfl
  have hunknown : ((g.toList.zip c.arcs.toList).countP fun a => a.1.near d = b ∧ a.2 = none) =
      (c.openArcs g d b).card := by
    rw [zip_toList, List.countP_map, List.countP_eq_length_filter, Counts.openArcs, Network.side,
      filter_filter]
    rfl
  have htotal : (((g.toList.zip c.arcs.toList).filter fun a => a.1.near d = b).map
      fun a => Counts.amount a.2).sum = c.flow g d b := by
    rw [zip_toList, List.filter_map, List.map_map]
    rfl
  rw [← harcs, ← hunknown, ← htotal]
  exact ⟨fun h => ⟨h.arcs, h.unknown, h.total⟩, fun h => ⟨h.1, h.2.1, h.2.2⟩⟩

theorem side_empty (d : Direction) (b : Fin n) : (empty : Sides n).side d b = Side.empty := by
  cases d <;> exact get_replicate _ _

theorem tallies_of_ofArcs (h : ofArcs g c.arcs = .ok s) : s.Tallies c g := fun d b => by
  obtain ⟨harcs, hunknown, htotal⟩ := takesIn_zip_iff.1 (foldlM_adjoin_eq_ok h d b)
  rw [side_empty] at harcs hunknown htotal
  exact ⟨harcs.trans (Nat.zero_add _), hunknown.trans (Nat.zero_add _),
    htotal.trans (Nat.zero_add _)⟩

theorem overflow_of_ofArcs (h : ofArcs g c.arcs = .error b) :
    ∃ d, UInt64.size ≤ c.flow g d b := by
  obtain ⟨d, hd⟩ := foldlM_adjoin_eq_error h
  rw [side_empty, zip_toList, List.filter_map, List.map_map] at hd
  exact ⟨d, hd.trans_eq (Nat.zero_add _)⟩

theorem clash_of_ofArcs (h : ofArcs g c.arcs = .error b) : c.Clash g b := by
  obtain ⟨d, hd⟩ := overflow_of_ofArcs h
  exact ⟨d, .inl hd⟩

/-- There are tallies unless a side carries more than any count can be. -/
theorem exists_ofArcs_iff :
    (∃ s, ofArcs g c.arcs = .ok s) ↔ ∀ d b, c.flow g d b < UInt64.size := by
  constructor
  · rintro ⟨s, hs⟩ d b
    rw [← (tallies_of_ofArcs hs d b).total]
    exact (s.side d b).total.toNat_lt_size
  · intro hflow
    rcases hs : ofArcs g c.arcs with b | s
    · obtain ⟨d, hd⟩ := overflow_of_ofArcs hs
      exact absurd (hflow d b) (Nat.not_lt_of_le hd)
    · exact ⟨s, rfl⟩

/-! ### When a count is found -/

theorem Tallies.settleArc (hs : s.Tallies c g) (hi : c.arcs.get i = none)
    (h : s.settleArc (g.get i) d count = .ok s') : s'.Tallies (c.setArc i count) g := fun d' b => by
  rw [settleArc_eq_updateEnds] at h
  have hside := updateEnds_eq_ok h d' b
  by_cases hb : (g.get i).near d' = b
  · rw [if_pos hb] at hside
    obtain ⟨harcs, hunknown, htotal⟩ := Side.settle?_eq_some hside
    refine ⟨harcs.trans (hs d' b).arcs, ?_, ?_⟩
    · rw [hunknown, (hs d' b).unknown, Counts.openArcs_setArc,
        card_erase_of_mem (Counts.mem_openArcs.2 ⟨hb, hi⟩)]
    · rw [htotal, (hs d' b).total, Counts.flow_setArc hi, if_pos hb]
  · rw [if_neg hb] at hside
    rw [hside]
    refine ⟨(hs d' b).arcs, ?_, ?_⟩
    · rw [(hs d' b).unknown, Counts.openArcs_setArc,
        erase_eq_of_notMem fun hmem => hb (Counts.mem_openArcs.1 hmem).1]
    · rw [(hs d' b).total, Counts.flow_setArc hi, if_neg hb, add_zero]

theorem Tallies.clash_of_settleArc (hs : s.Tallies c g) (hi : c.arcs.get i = none)
    (h : s.settleArc (g.get i) d count = .error b) : (c.setArc i count).Clash g b := by
  rw [settleArc_eq_updateEnds] at h
  obtain ⟨d', hb, hnone⟩ := updateEnds_eq_error h
  have hlarge := Side.settle?_eq_none hnone
  rw [(hs d' b).total] at hlarge
  exact ⟨d', .inl (by rwa [Counts.flow_setArc hi, if_pos hb])⟩

end Sides

end CoverageFlow
