import CoverageFlow.Flow.Solver
import CoverageFlow.Proofs.Flow.Queue
import CoverageFlow.Proofs.Flow.Tally

/-!
# What holds while the solver works

At the beginning of every round the tallies are right, exactly the blocks without a count wait in
one queue, only blocks with a count wait in the other, and a block with a count waits whenever one
of its sides has exactly one open arc.

Inside a round some of this is suspended. While blocks without a count are taken up, the rest of
them is in no queue, and while a block is served, its sides need not be waited for. The invariant
`Solver.Invariant` names both exceptions. Every operation of the solver either restores one of
them or makes a deduction.

## Main definitions

* `Solver.Invariant`: what holds inside a round, `Solver.Valid`: what holds between rounds.

## Main results

* `Solver.Invariant.notify`: a block is told that its side has changed.
* `Solver.Invariant.completeSide`: one side of a block is served.
* `Solver.Invariant.examine`: a block without a count is taken up.
* `Solver.valid_start`, `Solver.exists_start_iff`: the invariant holds at first, and when there is a
  first state.
-/

namespace CoverageFlow

variable {n m : ℕ} {g : Network n m}

namespace Solver

/-- What holds inside a round. The blocks `aside` have no count and were taken out of their queue.
The sides for which `todo` holds may have exactly one open arc although their block has a count
and does not wait. -/
structure Invariant (g : Network n m) (aside : List (Fin n)) (todo : Fin n → Direction → Prop)
    (s : Solver n m) : Prop where
  tallies : s.sides.Tallies s.counts g
  pending_valid : s.pending.Valid
  ready_valid : s.ready.Valid
  nodup : (s.pending.toList ++ aside).Nodup
  pending : ∀ b, s.counts.blocks.get b = none ↔ b ∈ s.pending.toList ++ aside
  ready : ∀ b ∈ s.ready.toList, s.counts.blocks.get b ≠ none
  waiting : ∀ b d, s.counts.blocks.get b ≠ none → (s.sides.side d b).unknown = 1 →
    b ∈ s.ready.toList ∨ todo b d

/-- What holds at the beginning of every round. -/
def Valid (g : Network n m) (s : Solver n m) : Prop := s.Invariant g [] fun _ _ => False

theorem counts_notify (s : Solver n m) (b : Fin n) (d : Direction) :
    (notify s b d).counts = s.counts := by
  rw [notify]
  split
  · rfl
  · split <;> rfl

/-- Where an arc is assigned, its tallies are settled and the block at its other end is told. -/
theorem assign_eq_ok {s s' : Solver n m} {i : Fin m} {d : Direction} {count : Count}
    (h : assign g i d count s = .ok () s') :
    ∃ sides, s.sides.settleArc (g.get i) d count = .ok sides ∧
      s' = notify { s with counts := s.counts.setArc i count, sides } ((g.get i).far d)
        d.opposite := by
  rcases hsettle : s.sides.settleArc (g.get i) d count with b | sides
  · simp only [assign, hsettle] at h
    cases h
  · simp only [assign, hsettle] at h
    cases h
    exact ⟨sides, rfl, rfl⟩

/-- Both sides of a block are served, one after the other. -/
theorem serve_eq_ok {s s' : Solver n m} {b : Fin n} (h : serve g b s = .ok () s') :
    ∃ s'', completeSide g b .outgoing s = .ok () s'' ∧
      completeSide g b .incoming s'' = .ok () s' := by
  rcases hfirst : completeSide g b .outgoing s with ⟨⟨⟩, s''⟩ | ⟨b', s''⟩
  · simp only [serve, bind, EStateM.bind, hfirst] at h
    exact ⟨s'', rfl, h⟩
  · simp only [serve, bind, EStateM.bind, hfirst] at h
    cases h

theorem missingArc?_eq_none {s : Solver n m} {b : Fin n} {d : Direction}
    (h : missingArc? g s b d = none) : s.counts.openArcs g d b = ∅ := by
  refine Finset.eq_empty_of_forall_notMem fun i hi => ?_
  obtain ⟨hnear, hnone⟩ := Counts.mem_openArcs.1 hi
  have := List.find?_eq_none.1 h i (List.mem_finRange i)
  simp [hnear, hnone] at this

/-- The arc that is looked up is the only open one, if the tally says that there is one. -/
theorem openArcs_eq_singleton {s : Solver n m} {b : Fin n} {d : Direction} {i : Fin m}
    (ht : (s.sides.side d b).Tallies s.counts g d b) (hone : (s.sides.side d b).unknown = 1)
    (h : missingArc? g s b d = some i) : s.counts.openArcs g d b = {i} := by
  have hmem : i ∈ s.counts.openArcs g d b := by
    have := List.find?_some h
    simp only [Bool.and_eq_true, decide_eq_true_eq, Option.isNone_iff_eq_none] at this
    exact Counts.mem_openArcs.2 this
  obtain ⟨j, hj⟩ := Finset.card_eq_one.1 (ht.unknown.symm.trans hone)
  rw [hj, Finset.mem_singleton] at hmem
  rw [hj, hmem]

theorem implied?_eq_some {s : Solver n m} {b : Fin n} {count : Count}
    (h : s.implied? b = some count) :
    ∃ d, 0 < (s.sides.side d b).arcs ∧ (s.sides.side d b).unknown = 0 ∧
      (s.sides.side d b).total = count := by
  have himplied {t : Side} (ht : t.implied? = some count) :
      0 < t.arcs ∧ t.unknown = 0 ∧ t.total = count := by
    rw [Side.implied?] at ht
    split at ht
    · next hcomplete => exact ⟨hcomplete.1, hcomplete.2, Option.some.inj ht⟩
    · cases ht
  rcases (Option.orElse_eq_some ..).1 h with hout | ⟨-, hin⟩
  · exact ⟨.outgoing, himplied hout⟩
  · exact ⟨.incoming, himplied hin⟩

theorem implied?_eq_none {s : Solver n m} {b : Fin n} (h : s.implied? b = none) (d : Direction)
    (harcs : 0 < (s.sides.side d b).arcs) : (s.sides.side d b).unknown ≠ 0 := by
  have hboth := (Option.orElse_eq_none ..).1 h
  have hside : (s.sides.side d b).implied? = none := by
    cases d
    · exact hboth.1
    · exact hboth.2
  intro hzero
  rw [Side.implied?, if_pos ⟨harcs, hzero⟩] at hside
  cases hside

namespace Invariant

variable {s : Solver n m} {aside : List (Fin n)} {todo todo' : Fin n → Direction → Prop}
  {b : Fin n} {d : Direction}

/-- A side need not be excepted if its block has no count or not exactly one open arc there. -/
theorem imp (h : s.Invariant g aside todo)
    (himp : ∀ b d, s.counts.blocks.get b ≠ none → (s.sides.side d b).unknown = 1 →
      b ∉ s.ready.toList → todo b d → todo' b d) : s.Invariant g aside todo' where
  tallies := h.tallies
  pending_valid := h.pending_valid
  ready_valid := h.ready_valid
  nodup := h.nodup
  pending := h.pending
  ready := h.ready
  waiting b d hb hd := by
    by_cases hr : b ∈ s.ready.toList
    · exact .inl hr
    · exact .inr (himp b d hb hd hr ((h.waiting b d hb hd).resolve_left hr))

/-- If no block was set aside, those that wait for a count are those without one. -/
theorem mem_pending (h : s.Invariant g [] todo) :
    b ∈ s.pending.toList ↔ s.counts.blocks.get b = none := by
  rw [h.pending b, List.append_nil]

/-- The first block that was set aside waits again. -/
theorem push_pending (h : s.Invariant g (b :: aside) todo) :
    Invariant g aside todo { s with pending := s.pending.push b } := by
  have hb : b ∉ s.pending.toList := fun hmem =>
    (List.nodup_append.1 h.nodup).2.2 b hmem b List.mem_cons_self rfl
  have hlist : (s.pending.push b).toList ++ aside = s.pending.toList ++ b :: aside := by
    rw [h.pending_valid.toList_push_of_notMem hb, List.append_assoc, List.singleton_append]
  exact {
    tallies := h.tallies
    pending_valid := h.pending_valid.push b
    ready_valid := h.ready_valid
    nodup := hlist ▸ h.nodup
    pending := hlist ▸ h.pending
    ready := h.ready
    waiting := h.waiting }

/-- A block with a count waits, so its sides need not be excepted. -/
theorem push_ready (h : s.Invariant g aside todo) (hb : s.counts.blocks.get b ≠ none) :
    Invariant g aside (fun b' d => todo b' d ∧ b' ≠ b) { s with ready := s.ready.push b } where
  tallies := h.tallies
  pending_valid := h.pending_valid
  ready_valid := h.ready_valid.push b
  nodup := h.nodup
  pending := h.pending
  ready b' hb' := by
    rcases h.ready_valid.mem_push.1 hb' with hold | rfl
    · exact h.ready b' hold
    · exact hb
  waiting b' d hb' hd := by
    rw [h.ready_valid.mem_push]
    by_cases hne : b' = b
    · exact .inl (.inr hne)
    · exact (h.waiting b' d hb' hd).imp .inl fun htodo => ⟨htodo, hne⟩

/-- A block whose side was excepted is told that it has changed. -/
theorem notify (h : s.Invariant g [] fun b' d' => todo b' d' ∨ b' = b ∧ d' = d) :
    (notify s b d).Invariant g [] todo := by
  rw [Solver.notify]
  split
  · next hnone =>
    rw [Option.isNone_iff_eq_none] at hnone
    have hlist := h.pending_valid.toList_push_of_mem (h.mem_pending.2 hnone)
    have hpushed : Solver.Invariant g [] (fun b' d' => todo b' d' ∨ b' = b ∧ d' = d)
        { s with pending := s.pending.push b } := {
      tallies := h.tallies
      pending_valid := h.pending_valid.push b
      ready_valid := h.ready_valid
      nodup := hlist ▸ h.nodup
      pending := hlist ▸ h.pending
      ready := h.ready
      waiting := h.waiting }
    refine hpushed.imp ?_
    rintro b' d' hb' - - (htodo | ⟨rfl, -⟩)
    · exact htodo
    · exact absurd hnone hb'
  · next hsome =>
    rw [Option.isNone_iff_eq_none] at hsome
    split
    · refine (h.push_ready hsome).imp ?_
      rintro b' d' - - - ⟨htodo | ⟨rfl, -⟩, hne⟩
      · exact htodo
      · exact absurd rfl hne
    · next hunknown =>
      refine h.imp ?_
      rintro b' d' - hd' - (htodo | ⟨rfl, rfl⟩)
      · exact htodo
      · exact absurd hd' hunknown

/-! ### From a block to an arc -/

/-- The only open arc on a side is settled. -/
theorem assign_eq_ok {s' : Solver n m} {i : Fin m} {count : Count} (h : s.Invariant g [] todo)
    (hopen : s.counts.openArcs g d b = {i}) (hok : assign g i d count s = .ok () s') :
    s'.Invariant g [] (fun b' d' => todo b' d' ∧ ¬ (b' = b ∧ d' = d)) ∧
      s'.counts = s.counts.setArc i count := by
  obtain ⟨hnear, hi⟩ := Counts.mem_openArcs.1 (hopen ▸ Finset.mem_singleton_self i)
  obtain ⟨sides, hsettle, rfl⟩ := Solver.assign_eq_ok hok
  have htallies := h.tallies.settleArc hi hsettle
  refine ⟨Invariant.notify ?_, counts_notify ..⟩
  exact {
    tallies := htallies
    pending_valid := h.pending_valid
    ready_valid := h.ready_valid
    nodup := h.nodup
    pending := h.pending
    ready := h.ready
    waiting := fun b' d' hb' hd' => by
      have hunknown := (htallies d' b').unknown
      rw [hd', Counts.openArcs_setArc] at hunknown
      by_cases hmem : i ∈ s.counts.openArcs g d' b'
      · -- The arc was open on the side `d'`, which is one of its two sides.
        obtain ⟨rfl, -⟩ := Counts.mem_openArcs.1 hmem
        rcases d.eq_or_eq_opposite d' with rfl | rfl
        · rw [hnear, hopen] at hunknown
          simp at hunknown
        · exact .inr (.inr ⟨rfl, rfl⟩)
      · rw [Finset.erase_eq_of_notMem hmem, ← (h.tallies d' b').unknown] at hunknown
        refine (h.waiting b' d' hb' hunknown.symm).imp_right fun htodo => .inl ⟨htodo, ?_⟩
        rintro ⟨rfl, rfl⟩
        exact hmem (hopen ▸ Finset.mem_singleton_self i) }

theorem assign_eq_error {s' : Solver n m} {i : Fin m} {count : Count} {b' : Fin n}
    (h : s.Invariant g [] todo) (hi : s.counts.arcs.get i = none)
    (herror : assign g i d count s = .error b' s') :
    s'.counts = s.counts.setArc i count ∧ s'.counts.Clash g b' := by
  rcases hsettle : s.sides.settleArc (g.get i) d count with b'' | sides
  · simp only [assign, hsettle] at herror
    cases herror
    exact ⟨rfl, h.tallies.clash_of_settleArc hi hsettle⟩
  · simp only [assign, hsettle] at herror
    cases herror

/-- A side is served in one of three ways: it does not determine an arc, or the arc would need a
negative count, or the arc gets the rest of the count of the block. -/
theorem completeSide_cases (h : s.Invariant g [] todo) (b : Fin n) (d : Direction) :
    (completeSide g b d s = .ok () s ∧
        (s.counts.blocks.get b ≠ none → (s.sides.side d b).unknown ≠ 1)) ∨
      (completeSide g b d s = .error b s ∧ s.counts.Clash g b) ∨
      ∃ i rest, completeSide g b d s = assign g i d rest s ∧ s.counts.openArcs g d b = {i} ∧
        s.counts.Deduction g (s.counts.setArc i rest) := by
  rcases hb : s.counts.blocks.get b with - | count
  · exact .inl ⟨by rw [completeSide, hb], fun hne => absurd rfl hne⟩
  by_cases hone : (s.sides.side d b).unknown = 1
  · rcases hfind : missingArc? g s b d with - | i
    · have hunknown := (h.tallies d b).unknown
      rw [hone, missingArc?_eq_none hfind] at hunknown
      cases hunknown
    · have hopen := openArcs_eq_singleton (h.tallies d b) hone hfind
      rcases hrest : Count.sub? count (s.sides.side d b).total with - | rest
      · refine .inr (.inl ⟨by simp only [completeSide, hb, if_pos hone, hfind, hrest], d, .inr ?_⟩)
        rw [Count.sub?_eq_none_iff, (h.tallies d b).total] at hrest
        exact ⟨count, hb, hrest⟩
      · refine .inr (.inr ⟨i, rest, by simp only [completeSide, hb, if_pos hone, hfind, hrest],
          hopen, Counts.deduction_setArc hopen hb ?_⟩)
        rwa [Count.sub?_eq_some_iff, (h.tallies d b).total] at hrest
  · exact .inl ⟨by simp only [completeSide, hb, if_neg hone], fun _ => hone⟩

/-- One side of a block is served: it need not be excepted any more. -/
theorem completeSide_eq_ok {s' : Solver n m} (h : s.Invariant g [] todo)
    (hok : completeSide g b d s = .ok () s') :
    s'.Invariant g [] (fun b' d' => todo b' d' ∧ ¬ (b' = b ∧ d' = d)) ∧
      s.counts.Entails g s'.counts := by
  obtain ⟨heq, hnot⟩ | ⟨heq, -⟩ | ⟨i, rest, heq, hopen, hdeduction⟩ := h.completeSide_cases b d
  · rw [heq] at hok
    cases hok
    refine ⟨h.imp fun b' d' hb' hd' _ htodo => ⟨htodo, ?_⟩, .refl _⟩
    rintro ⟨rfl, rfl⟩
    exact hnot hb' hd'
  · rw [heq] at hok
    cases hok
  · rw [heq] at hok
    obtain ⟨hs', hcounts⟩ := h.assign_eq_ok hopen hok
    rw [hcounts]
    exact ⟨hs', hdeduction.entails⟩

theorem completeSide_eq_error {s' : Solver n m} {b' : Fin n} (h : s.Invariant g [] todo)
    (herror : completeSide g b d s = .error b' s') :
    s.counts.Entails g s'.counts ∧ s'.counts.Clash g b' := by
  obtain ⟨heq, -⟩ | ⟨heq, hclash⟩ | ⟨i, rest, heq, hopen, hdeduction⟩ := h.completeSide_cases b d
  · rw [heq] at herror
    cases herror
  · rw [heq] at herror
    cases herror
    exact ⟨.refl _, hclash⟩
  · rw [heq] at herror
    have hi := (Counts.mem_openArcs.1 (hopen ▸ Finset.mem_singleton_self i)).2
    obtain ⟨hcounts, hclash⟩ := h.assign_eq_error hi herror
    rw [hcounts] at hclash ⊢
    exact ⟨hdeduction.entails, hclash⟩

/-- A block that waits with its count is served. -/
theorem serve_eq_ok {s' : Solver n m} (h : s.Invariant g [] fun b' _ => b' = b)
    (hok : serve g b s = .ok () s') : s'.Valid g ∧ s.counts.Entails g s'.counts := by
  obtain ⟨s₁, hfirst, hsecond⟩ := Solver.serve_eq_ok hok
  obtain ⟨h₁, hentails₁⟩ := h.completeSide_eq_ok hfirst
  obtain ⟨h₂, hentails₂⟩ := h₁.completeSide_eq_ok hsecond
  refine ⟨h₂.imp ?_, hentails₁.trans hentails₂⟩
  rintro b' (- | -) - - - ⟨⟨rfl, hout⟩, hin⟩
  · exact hout ⟨rfl, rfl⟩
  · exact hin ⟨rfl, rfl⟩

theorem serve_eq_error {s' : Solver n m} {b' : Fin n} (h : s.Invariant g [] fun b' _ => b' = b)
    (herror : serve g b s = .error b' s') :
    s.counts.Entails g s'.counts ∧ s'.counts.Clash g b' := by
  rcases hfirst : completeSide g b .outgoing s with ⟨⟨⟩, s₁⟩ | ⟨b'', s₁⟩
  · simp only [serve, bind, EStateM.bind, hfirst] at herror
    obtain ⟨h₁, hentails₁⟩ := h.completeSide_eq_ok hfirst
    obtain ⟨hentails₂, hclash⟩ := h₁.completeSide_eq_error herror
    exact ⟨hentails₁.trans hentails₂, hclash⟩
  · simp only [serve, bind, EStateM.bind, hfirst] at herror
    cases herror
    exact h.completeSide_eq_error hfirst

/-! ### From arcs to a block -/

/-- A block without a count that was set aside gets one from a side, or waits again. -/
theorem examine (h : s.Invariant g (b :: aside) todo) :
    (examine s b).Invariant g aside todo ∧ s.counts.Entails g (Solver.examine s b).counts := by
  have hb : s.counts.blocks.get b = none :=
    (h.pending b).2 (List.mem_append_right _ List.mem_cons_self)
  have hnot : b ∉ s.pending.toList ++ aside :=
    (List.nodup_cons.1 (List.perm_middle.nodup_iff.1 h.nodup)).1
  rw [Solver.examine]
  split
  · next count hcount =>
    obtain ⟨d, harcs, hunknown, rfl⟩ := implied?_eq_some hcount
    rw [(h.tallies d b).arcs, Finset.card_pos] at harcs
    rw [(h.tallies d b).unknown, Finset.card_eq_zero] at hunknown
    refine ⟨?_, (Counts.deduction_setBlock harcs hb hunknown (h.tallies d b).total).entails⟩
    exact {
      tallies := fun d b => ⟨(h.tallies d b).arcs, (h.tallies d b).unknown, (h.tallies d b).total⟩
      pending_valid := h.pending_valid
      ready_valid := h.ready_valid.push b
      nodup := (List.nodup_cons.1 (List.perm_middle.nodup_iff.1 h.nodup)).2
      pending := fun b' => by
        rw [Counts.get_blocks_setBlock]
        by_cases hne : b = b'
        · subst hne
          simpa using hnot
        · rw [if_neg hne, h.pending b', List.perm_middle.mem_iff, List.mem_cons]
          simp [Ne.symm hne]
      ready := fun b' hb' => by
        rw [Counts.get_blocks_setBlock]
        split
        · exact Option.some_ne_none _
        · next hne =>
          refine h.ready b' ((h.ready_valid.mem_push.1 hb').resolve_right (Ne.symm hne))
      waiting := fun b' d' hb' hd' => by
        rw [h.ready_valid.mem_push]
        rw [Counts.get_blocks_setBlock] at hb'
        by_cases hne : b = b'
        · exact .inl (.inr hne.symm)
        · rw [if_neg hne] at hb'
          exact (h.waiting b' d' hb' hd').imp_left .inl }
  · exact ⟨h.push_pending, .refl _⟩

theorem foldl_examine {bs : List (Fin n)} (h : s.Invariant g bs todo) :
    (bs.foldl Solver.examine s).Invariant g [] todo ∧
      s.counts.Entails g (bs.foldl Solver.examine s).counts := by
  induction bs generalizing s with
  | nil => exact ⟨h, .refl _⟩
  | cons b bs ih =>
    obtain ⟨hfirst, hentails⟩ := h.examine
    obtain ⟨hrest, hentails'⟩ := ih hfirst
    exact ⟨hrest, hentails.trans hentails'⟩

end Invariant

/-- All blocks without a count are taken up. -/
theorem Valid.sweep {s : Solver n m} (h : s.Valid g) :
    (sweep s).Valid g ∧ s.counts.Entails g (Solver.sweep s).counts := by
  refine Invariant.foldl_examine (s := { s with pending := .empty }) ?_
  exact {
    tallies := h.tallies
    pending_valid := MarkedQueue.valid_empty
    ready_valid := h.ready_valid
    nodup := h.pending_valid.nodup
    pending := fun b => by
      rw [h.pending b, List.append_nil]
      rfl
    ready := h.ready
    waiting := h.waiting }

/-! ### The first state -/

theorem counts_enqueue (s : Solver n m) (b : Fin n) : (enqueue s b).counts = s.counts := by
  rw [enqueue]
  split <;> rfl

/-- The first block that was set aside is queued according to its count. -/
theorem Invariant.enqueue {s : Solver n m} {b : Fin n} {bs : List (Fin n)}
    (h : s.Invariant g ((b :: bs).filter fun b => s.counts.blocks.get b = none)
      fun b' _ => b' ∈ b :: bs) :
    (enqueue s b).Invariant g (bs.filter fun b => s.counts.blocks.get b = none)
      fun b' _ => b' ∈ bs := by
  rw [Solver.enqueue]
  split
  · next hb =>
    rw [Option.isSome_iff_ne_none] at hb
    rw [List.filter_cons_of_neg (by simpa using hb)] at h
    refine (h.push_ready hb).imp fun b' d _ _ _ hmem => ?_
    exact (List.mem_cons.1 hmem.1).resolve_left hmem.2
  · next hb =>
    rw [Option.isSome_iff_ne_none, not_not] at hb
    rw [List.filter_cons_of_pos (by simpa using hb)] at h
    refine h.push_pending.imp fun b' d hb' _ _ hmem => ?_
    exact (List.mem_cons.1 hmem).resolve_left fun he => hb' (he ▸ hb)

theorem Invariant.foldl_enqueue {s : Solver n m} {bs : List (Fin n)}
    (h : s.Invariant g (bs.filter fun b => s.counts.blocks.get b = none) fun b' _ => b' ∈ bs) :
    (bs.foldl Solver.enqueue s).Valid g ∧ (bs.foldl Solver.enqueue s).counts = s.counts := by
  induction bs generalizing s with
  | nil => exact ⟨h.imp fun b d _ _ _ hmem => absurd hmem List.not_mem_nil, rfl⟩
  | cons b bs ih =>
    have hfirst := h.enqueue
    rw [← counts_enqueue s b] at hfirst
    obtain ⟨hvalid, hcounts⟩ := ih hfirst
    exact ⟨hvalid, hcounts.trans (counts_enqueue s b)⟩

theorem valid_start {counts : Counts n m} {s : Solver n m} (h : start g counts = .ok s) :
    s.Valid g ∧ s.counts = counts := by
  rcases hsides : Sides.ofArcs g counts.arcs with b | sides
  · simp only [start, hsides] at h
    cases h
  simp only [start, hsides] at h
  cases h
  refine Invariant.foldl_enqueue ?_
  exact {
    tallies := Sides.tallies_of_ofArcs hsides
    pending_valid := MarkedQueue.valid_empty
    ready_valid := MarkedQueue.valid_empty
    nodup := (List.nodup_finRange n).filter _
    pending := fun b => by simp
    ready := fun b hb => absurd hb List.not_mem_nil
    waiting := fun b d _ _ => .inr (List.mem_finRange b) }

theorem clash_of_start {counts : Counts n m} {b : Fin n} (h : start g counts = .error b) :
    counts.Clash g b := by
  rcases hsides : Sides.ofArcs g counts.arcs with b' | sides
  · simp only [start, hsides] at h
    cases h
    exact Sides.clash_of_ofArcs hsides
  · simp only [start, hsides] at h
    cases h

/-- The solver can start unless a side carries more than any count can be. -/
theorem exists_start_iff {counts : Counts n m} :
    (∃ s, start g counts = .ok s) ↔ ∀ d b, counts.flow g d b < UInt64.size := by
  rw [← Sides.exists_ofArcs_iff]
  rcases hsides : Sides.ofArcs g counts.arcs with b | sides
  · simp only [start, hsides]
    exact iff_of_false (by rintro ⟨s, ⟨⟩⟩) (by rintro ⟨s, ⟨⟩⟩)
  · simp only [start, hsides]
    exact iff_of_true ⟨_, rfl⟩ ⟨sides, rfl⟩

end Solver

end CoverageFlow
