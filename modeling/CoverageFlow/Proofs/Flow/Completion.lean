import CoverageFlow.Proofs.Flow.Invariant

/-!
# Completing counts is deduction

Between rounds the invariant of the solver holds, so a round makes deductions, or shows that none
is left, or meets a clash. Since the rounds come to an end, so does deduction: whatever the order
in which blocks waited, the counts that the solver leaves are deduced from the given ones, and
unless they clash, they are all known or nothing more can be deduced.

## Main definitions

* `Solver.Next.Sound`: what a round tells about the counts.
* `Solver.Concludes`: what a finished run tells about the counts it began with.

## Main results

* `Solver.Valid.run_induction`: what rounds pass on to the run before them holds of all runs.
* `Solver.Valid.step`, `Solver.Valid.run`: what rounds and runs tell is true.
* `Network.complete_eq_ok`, `Network.complete_eq_undetermined`, `Network.complete_eq_inconsistent`:
  the three ways in which completing counts ends.
-/

namespace CoverageFlow

variable {n m : ℕ} {g : Network n m} {c c' : Counts n m}

/-! ### The number of missing counts -/

namespace Counts

theorem countP_isNone {α : Type} {k : ℕ} (v : Vector (Option α) k) :
    v.countP Option.isNone = (Finset.univ.filter fun i => v.get i = none).card := by
  rw [← Vector.countP_toList, countP_toList_eq_card]
  simp only [Option.isNone_iff_eq_none]

theorem unknownBlocks_eq (c : Counts n m) :
    c.unknownBlocks = (Finset.univ.filter fun b => c.blocks.get b = none).card :=
  countP_isNone c.blocks

theorem unknownArcs_eq (c : Counts n m) :
    c.unknownArcs = (Finset.univ.filter fun i => c.arcs.get i = none).card :=
  countP_isNone c.arcs

theorem card_missing (c : Counts n m) : c.missing.card = c.unknownBlocks + c.unknownArcs := by
  rw [unknownBlocks_eq, unknownArcs_eq, ← Finset.card_disjSum]
  refine congrArg Finset.card (Finset.ext fun x => ?_)
  rcases x with b | i <;> simp

end Counts

namespace Solver

/-! ### Progress -/

theorem pending_examine_le (s : Solver n m) (b : Fin n) :
    (examine s b).pending.size ≤ s.pending.size + 1 := by
  rw [examine]
  split
  · exact Nat.le_succ _
  · exact s.pending.size_push_le b

theorem pending_foldl_examine_le (bs : List (Fin n)) (s : Solver n m) :
    (bs.foldl examine s).pending.size ≤ s.pending.size + bs.length := by
  induction bs generalizing s with
  | nil => exact Nat.le_refl _
  | cons b bs ih =>
    have := ih (examine s b)
    have := pending_examine_le s b
    simp only [List.foldl_cons, List.length_cons]
    omega

/-- Unless a block gets a count, no block is implied one, and all counts stay. -/
theorem foldl_examine_progress (bs : List (Fin n)) (s : Solver n m) :
    (bs.foldl examine s).pending.size < s.pending.size + bs.length ∨
      (bs.foldl examine s).counts = s.counts ∧ ∀ b ∈ bs, s.implied? b = none := by
  induction bs generalizing s with
  | nil => exact .inr ⟨rfl, fun b hb => absurd hb List.not_mem_nil⟩
  | cons b bs ih =>
    rw [List.foldl_cons, List.length_cons]
    rcases himplied : s.implied? b with - | count
    · have hexamine : examine s b = { s with pending := s.pending.push b } := by
        rw [examine, himplied]
      rcases ih (examine s b) with hlt | ⟨hcounts, hnone⟩
      · have := pending_examine_le s b
        exact .inl (by omega)
      · refine .inr ⟨by rw [hcounts, hexamine], fun b' hb' => ?_⟩
        rcases List.mem_cons.1 hb' with rfl | hb'
        · exact himplied
        · have := hnone b' hb'
          rwa [hexamine] at this
    · have hpending : (examine s b).pending = s.pending := by
        rw [examine, himplied]
      have := pending_foldl_examine_le bs (examine s b)
      rw [hpending] at this
      exact .inl (by omega)

/-- If a sweep gives no block a count, no side implies the count of a block that lacks it. -/
theorem sweep_stalled {s : Solver n m} (h : ¬ (sweep s).pending.size < s.pending.size) :
    (sweep s).counts = s.counts ∧ ∀ b ∈ s.pending.toList, s.implied? b = none := by
  have hprogress := foldl_examine_progress s.pending.toList { s with pending := .empty }
  rw [MarkedQueue.length_toList, MarkedQueue.size_empty, Nat.zero_add] at hprogress
  exact hprogress.resolve_left h

/-! ### Where rounds end -/

namespace Valid

variable {s : Solver n m}

/-- Once a block is popped that waits with its count, its sides are excepted. -/
theorem pop_ready {b : Fin n} {ready : MarkedQueue n} (h : s.Valid g)
    (hpop : s.ready.pop? = some (b, ready)) :
    Invariant g [] (fun b' _ => b' = b) { s with ready } where
  tallies := h.tallies
  pending_valid := h.pending_valid
  ready_valid := h.ready_valid.of_pop? hpop
  nodup := h.nodup
  pending := h.pending
  ready b' hb' := by
    refine h.ready b' ?_
    rw [MarkedQueue.toList_of_pop? hpop]
    exact List.mem_cons_of_mem b hb'
  waiting b' d hb' hd := by
    have hwait := (h.waiting b' d hb' hd).resolve_right id
    rw [MarkedQueue.toList_of_pop? hpop, List.mem_cons] at hwait
    exact hwait.symm

/-- The blocks that wait for a count are those without one. -/
theorem pending_size (h : s.Valid g) : s.pending.size = s.counts.unknownBlocks := by
  rw [Counts.unknownBlocks_eq, ← MarkedQueue.length_toList,
    ← List.toFinset_card_of_nodup h.pending_valid.nodup]
  refine congrArg Finset.card (Finset.ext fun b => ?_)
  simp [h.mem_pending]

/-- Where no block waits to be served and no side implies the count of a block that lacks it,
nothing can be deduced. -/
theorem saturated (h : s.Valid g) (hready : s.ready.toList = [])
    (hpending : ∀ b ∈ s.pending.toList, s.implied? b = none) : s.counts.Saturated g := by
  refine Counts.saturated_of_openArcs (fun d b hside hb => ?_) fun d b hb hone => ?_
  · have harcs : 0 < (s.sides.side d b).arcs := by
      rw [(h.tallies d b).arcs]
      exact hside.card_pos
    have := implied?_eq_none (hpending b (h.mem_pending.2 hb)) d harcs
    rw [(h.tallies d b).unknown] at this
    exact Finset.card_ne_zero.1 this
  · have hwait := h.waiting b d hb ((h.tallies d b).unknown.trans hone)
    rw [hready] at hwait
    exact hwait.elim List.not_mem_nil id

end Valid

/-! ### One round -/

/-- What a round that began with the counts `c` tells about them. -/
def Next.Sound (g : Network n m) (c : Counts n m) : Next n m → Prop
  | .served s => s.Valid g ∧ c.Entails g s.counts
  | .swept s => s.Valid g ∧ c.Entails g s.counts
  | .settled => c.Saturated g ∧ c.unknownBlocks = 0
  | .stalled s => s.Valid g ∧ s.counts = c ∧ c.Saturated g ∧ c.unknownBlocks ≠ 0
  | .clash b s => c.Entails g s.counts ∧ s.counts.Clash g b

theorem Valid.step {s : Solver n m} (h : s.Valid g) : (step g s).Sound g s.counts := by
  rw [Solver.step]
  split
  · next b ready hpop =>
    split
    · next hserve => exact (h.pop_ready hpop).serve_eq_ok hserve
    · next hserve => exact (h.pop_ready hpop).serve_eq_error hserve
  · next hpop =>
    have hready := MarkedQueue.pop?_eq_none_iff.1 hpop
    split
    · next hzero =>
      refine ⟨h.saturated hready fun b hb => ?_, h.pending_size ▸ hzero⟩
      rw [← MarkedQueue.length_toList, List.length_eq_zero_iff] at hzero
      rw [hzero] at hb
      exact absurd hb List.not_mem_nil
    · next hnonzero =>
      dsimp only
      split
      · exact h.sweep
      · next hstall =>
        obtain ⟨hcounts, himplied⟩ := sweep_stalled hstall
        exact ⟨h.sweep.1, hcounts, h.saturated hready himplied, h.pending_size ▸ hnonzero⟩

theorem Valid.of_served {s s' : Solver n m} (h : s.Valid g)
    (hstep : Solver.step g s = .served s') : s'.Valid g ∧ s.counts.Entails g s'.counts := by
  have hsound := h.step
  rwa [hstep] at hsound

theorem Valid.of_swept {s s' : Solver n m} (h : s.Valid g)
    (hstep : Solver.step g s = .swept s') : s'.Valid g ∧ s.counts.Entails g s'.counts := by
  have hsound := h.step
  rwa [hstep] at hsound

/-! ### All rounds -/

/-- A run goes on from round to round, each of which keeps the invariant and makes deductions, until
one of them is the last. -/
theorem Valid.run_induction {P : Solver n m → EStateM.Result (Obstacle n) (Counts n m) Unit → Prop}
    (next : ∀ s s' r, s.Valid g → s'.Valid g → s.counts.Entails g s'.counts →
      Solver.step g s = .served s' ∨ Solver.step g s = .swept s' → P s' r → P s r)
    (settled : ∀ s, s.Valid g → Solver.step g s = .settled → P s (.ok () s.counts))
    (stalled : ∀ s s', s.Valid g → Solver.step g s = .stalled s' →
      P s (.error (.undetermined s'.pending.size) s'.counts))
    (clash : ∀ s b s', s.Valid g → Solver.step g s = .clash b s' →
      P s (.error (.inconsistent b) s'.counts))
    {s : Solver n m} (h : s.Valid g) : P s (Solver.run g s) := by
  induction s using Solver.run.induct g with
  | case1 s s' hstep ih =>
    obtain ⟨hvalid, hentails⟩ := h.of_served hstep
    rw [Solver.run, hstep]
    exact next s s' _ h hvalid hentails (.inl hstep) (ih hvalid)
  | case2 s s' hstep ih =>
    obtain ⟨hvalid, hentails⟩ := h.of_swept hstep
    rw [Solver.run, hstep]
    exact next s s' _ h hvalid hentails (.inr hstep) (ih hvalid)
  | case3 s hstep =>
    rw [Solver.run, hstep]
    exact settled s h hstep
  | case4 s s' hstep =>
    rw [Solver.run, hstep]
    exact stalled s s' h hstep
  | case5 s b s' hstep =>
    rw [Solver.run, hstep]
    exact clash s b s' h hstep

/-- What a finished run that began with the counts `c` tells about them. -/
def Concludes (g : Network n m) (c : Counts n m) :
    EStateM.Result (Obstacle n) (Counts n m) Unit → Prop
  | .ok () c' => c.Entails g c' ∧ c'.Saturated g ∧ c'.unknownBlocks = 0
  | .error (.undetermined remaining) c' =>
    c.Entails g c' ∧ c'.Saturated g ∧ c'.unknownBlocks = remaining ∧ remaining ≠ 0
  | .error (.inconsistent b) c' => c.Entails g c' ∧ c'.Clash g b

/-- What a run concludes from deduced counts, it concludes from the given ones. -/
theorem Concludes.of_entails {r : EStateM.Result (Obstacle n) (Counts n m) Unit}
    (h : Concludes g c' r) (hc : c.Entails g c') : Concludes g c r := by
  rcases r with ⟨⟨⟩, c''⟩ | ⟨b | remaining, c''⟩ <;> exact ⟨hc.trans h.1, h.2⟩

theorem Valid.run {s : Solver n m} (h : s.Valid g) : Concludes g s.counts (run g s) := by
  refine Valid.run_induction (P := fun s r => Concludes g s.counts r) ?next ?settled ?stalled
    ?clash h
  case next =>
    intro s s' r _ _ hentails _ hr
    exact hr.of_entails hentails
  case settled =>
    intro s h hstep
    have hsound := h.step
    rw [hstep] at hsound
    exact ⟨.refl _, hsound⟩
  case stalled =>
    intro s s' h hstep
    have hsound := h.step
    rw [hstep] at hsound
    obtain ⟨hvalid, hcounts, hsaturated, hunknown⟩ := hsound
    refine ⟨hcounts ▸ .refl _, hcounts ▸ hsaturated, hvalid.pending_size.symm, ?_⟩
    rwa [hvalid.pending_size, hcounts]
  case clash =>
    intro s b s' h hstep
    have hsound := h.step
    rwa [hstep] at hsound

end Solver

/-! ### The three ways to end -/

namespace Network

/-- What the end of completing the counts `c` tells about them. -/
def Concludes (g : Network n m) (c : Counts n m) :
    EStateM.Result (Obstacle n) (Counts n m) Unit → Prop
  | .ok () c' => c.Entails g c' ∧ c'.missing = ∅
  | .error (.undetermined remaining) c' => c.Entails g c' ∧ c'.Saturated g ∧
      remaining = (if c'.unknownBlocks = 0 then c'.unknownArcs else c'.unknownBlocks) ∧
      remaining ≠ 0
  | .error (.inconsistent b) c' => c.Entails g c' ∧ c'.Clash g b

theorem concludes_complete (g : Network n m) (c : Counts n m) : g.Concludes c (g.complete c) := by
  rw [complete]
  rcases hstart : Solver.start g c with b | s
  · exact ⟨.refl c, Solver.clash_of_start hstart⟩
  obtain ⟨hvalid, rfl⟩ := Solver.valid_start hstart
  have hrun := hvalid.run
  rcases h : s.run g with ⟨⟨⟩, c'⟩ | ⟨b | remaining, c'⟩
  · rw [h] at hrun
    obtain ⟨hentails, hsaturated, hblocks⟩ := hrun
    simp only [h]
    split
    · next hzero => exact ⟨hentails, Finset.card_eq_zero.1 ((Counts.card_missing c').trans hzero)⟩
    · next hnonzero =>
      exact ⟨hentails, hsaturated, by rw [if_pos hblocks, hblocks, zero_add], hnonzero⟩
  · rw [h] at hrun
    simp only [h]
    exact hrun
  · rw [h] at hrun
    obtain ⟨hentails, hsaturated, hblocks, hnonzero⟩ := hrun
    simp only [h]
    exact ⟨hentails, hsaturated, by rw [hblocks, if_neg hnonzero], hnonzero⟩

theorem complete_eq_ok (h : g.complete c = .ok () c') : c.Entails g c' ∧ c'.missing = ∅ := by
  have hend := concludes_complete g c
  rwa [h] at hend

theorem complete_eq_undetermined {remaining : ℕ}
    (h : g.complete c = .error (.undetermined remaining) c') :
    c.Entails g c' ∧ c'.Saturated g ∧ c'.missing.Nonempty := by
  have hend := concludes_complete g c
  rw [h] at hend
  obtain ⟨hentails, hsaturated, hremaining, hnonzero⟩ := hend
  refine ⟨hentails, hsaturated, Finset.card_pos.1 ?_⟩
  rw [Counts.card_missing]
  split at hremaining <;> omega

theorem complete_eq_inconsistent {b : Fin n}
    (h : g.complete c = .error (.inconsistent b) c') : c.Entails g c' ∧ c'.Clash g b := by
  have hend := concludes_complete g c
  rwa [h] at hend

/-- If a side adds up to no count from the start, no count changes. -/
theorem complete_of_start_eq_error {b : Fin n} (h : Solver.start g c = .error b) :
    g.complete c = .error (.inconsistent b) c := by
  simp only [complete, h]

/-- A clash is met before the first round or in some round. -/
theorem complete_eq_inconsistent_iff {b : Fin n} :
    g.complete c = .error (.inconsistent b) c' ↔ Solver.start g c = .error b ∧ c' = c ∨
      ∃ s, Solver.start g c = .ok s ∧ s.run g = .error (.inconsistent b) c' := by
  rw [complete]
  rcases hstart : Solver.start g c with b' | s
  · simp only [EStateM.Result.error.injEq, Obstacle.inconsistent.injEq, Except.error.injEq,
      reduceCtorEq, false_and, exists_false, or_false]
    exact and_congr_right fun _ => eq_comm
  · simp only [reduceCtorEq, false_and, false_or, Except.ok.injEq, exists_eq_left']
    rcases hrun : s.run g with ⟨⟨⟩, c''⟩ | ⟨o, c''⟩
    · dsimp only
      split <;> simp
    · rfl

end Network

end CoverageFlow
