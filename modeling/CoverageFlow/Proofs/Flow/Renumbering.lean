import CoverageFlow.Proofs.Flow.Completion

/-!
# The order of the arcs does not matter

The arcs of a network stand in some order, and the solver depends on it in two places: it adds up
the tallies arc by arc, and it looks up an arc whose count is missing by going through all of them.
Neither shows in what it finds. Sums do not depend on the order in which they are taken, and an arc
is looked up only where it is the only one. So a solver that works on a network whose arcs were
renumbered passes through the same states, in which the same blocks wait and the same counts are
known, each under the new number of its arc.

Only if some side carries too much from the beginning, the order decides at which block this is
noticed first.

## Main definitions

* `Network.renumber`, `Counts.renumber`, `Solver.renumber`: the same with renumbered arcs.

## Main results

* `Counts.flow_renumber`, `Side.tallies_renumber_iff`: sides carry the same, and tallies fit both.
* `Solver.Valid.step_renumber`, `Solver.Valid.run_renumber`: rounds and runs do the same.
* `Network.complete_renumber`: completing counts ends alike.
-/

namespace CoverageFlow

variable {n m : ℕ} {g : Network n m} {c c' : Counts n m} {d : Direction} {b : Fin n} {i : Fin m}
  {σ : Equiv.Perm (Fin m)}

/-! ### Renumbered arcs -/

/-- The network whose arc `i` is the arc `σ i` of the given one. -/
def Network.renumber (σ : Equiv.Perm (Fin m)) (g : Network n m) : Network n m :=
  Vector.ofFn fun i => g.get (σ i)

/-- The counts of which arc `i` has that of the arc `σ i`. -/
def Counts.renumber (σ : Equiv.Perm (Fin m)) (c : Counts n m) : Counts n m :=
  { c with arcs := Vector.ofFn fun i => c.arcs.get (σ i) }

theorem get_ofFn {α : Type} (f : Fin m → α) (i : Fin m) : (Vector.ofFn f).get i = f i := by
  rw [get_eq_getElem, Vector.getElem_ofFn]

@[simp] theorem Network.get_renumber : (g.renumber σ).get i = g.get (σ i) := get_ofFn _ _

theorem Network.mem_side_renumber : i ∈ (g.renumber σ).side d b ↔ σ i ∈ g.side d b := by
  rw [mem_side, mem_side, get_renumber]

namespace Counts

@[simp] theorem get_arcs_renumber : (c.renumber σ).arcs.get i = c.arcs.get (σ i) := get_ofFn _ _

theorem setArc_renumber (count : Count) :
    (c.renumber σ).setArc i count = (c.setArc (σ i) count).renumber σ := by
  have harcs : ((c.renumber σ).setArc i count).arcs = ((c.setArc (σ i) count).renumber σ).arcs := by
    refine Vector.ext fun k hk => ?_
    change ((c.renumber σ).setArc i count).arcs.get ⟨k, hk⟩ =
      ((c.setArc (σ i) count).renumber σ).arcs.get ⟨k, hk⟩
    simp only [get_arcs_setArc, get_arcs_renumber, σ.injective.eq_iff]
  exact congrArg (fun arcs => ({ c with arcs } : Counts n m)) harcs

theorem mem_openArcs_renumber :
    i ∈ (c.renumber σ).openArcs (g.renumber σ) d b ↔ σ i ∈ c.openArcs g d b := by
  rw [mem_openArcs, mem_openArcs, Network.get_renumber, get_arcs_renumber]

/-- Renumbered arcs are missing as many counts. -/
theorem unknownArcs_renumber (c : Counts n m) (σ : Equiv.Perm (Fin m)) :
    (c.renumber σ).unknownArcs = c.unknownArcs := by
  rw [unknownArcs_eq, unknownArcs_eq]
  refine Finset.card_equiv σ fun i => ?_
  rw [Finset.mem_filter_univ, Finset.mem_filter_univ, get_arcs_renumber]

/-- A side carries the same, however its arcs are numbered. -/
theorem flow_renumber (g : Network n m) (c : Counts n m) (σ : Equiv.Perm (Fin m)) (d : Direction)
    (b : Fin n) : (c.renumber σ).flow (g.renumber σ) d b = c.flow g d b := by
  refine Finset.sum_equiv σ (fun i => Network.mem_side_renumber) fun i _ => ?_
  rw [value, value, of_inr, of_inr, get_arcs_renumber]

end Counts

/-! ### Tallies -/

/-- A tally does not show how the arcs are numbered. -/
theorem Side.tallies_renumber_iff {t : Side} :
    t.Tallies (c.renumber σ) (g.renumber σ) d b ↔ t.Tallies c g d b := by
  have harcs : ((g.renumber σ).side d b).card = (g.side d b).card :=
    Finset.card_equiv σ fun i => Network.mem_side_renumber
  have hopen : ((c.renumber σ).openArcs (g.renumber σ) d b).card = (c.openArcs g d b).card :=
    Finset.card_equiv σ fun i => Counts.mem_openArcs_renumber
  have hflow := c.flow_renumber g σ d b
  exact ⟨fun h => ⟨h.arcs.trans harcs, h.unknown.trans hopen, h.total.trans hflow⟩,
    fun h => ⟨h.arcs.trans harcs.symm, h.unknown.trans hopen.symm, h.total.trans hflow.symm⟩⟩

/-- The first tallies of a network are those of the renumbered one. -/
theorem Sides.ofArcs_renumber {s : Sides n} (h : ofArcs g c.arcs = .ok s)
    (σ : Equiv.Perm (Fin m)) : ofArcs (g.renumber σ) (c.renumber σ).arcs = .ok s := by
  have hflow : ∀ d b, (c.renumber σ).flow (g.renumber σ) d b < UInt64.size := fun d b => by
    rw [c.flow_renumber]
    exact exists_ofArcs_iff.1 ⟨s, h⟩ d b
  obtain ⟨s', hs'⟩ := exists_ofArcs_iff.2 hflow
  have htallies : s'.Tallies c g := fun d b =>
    Side.tallies_renumber_iff.1 (tallies_of_ofArcs hs' d b)
  rw [hs', htallies.unique (tallies_of_ofArcs h)]

/-! ### The solver -/

/-- A result with its final state replaced. -/
def mapState {ε α S T : Type} (f : S → T) : EStateM.Result ε S α → EStateM.Result ε T α
  | .ok a s => .ok a (f s)
  | .error e s => .error e (f s)

namespace Solver

variable {s : Solver n m}

/-- The solver with renumbered arcs; its tallies and queues tell about blocks only. -/
def renumber (σ : Equiv.Perm (Fin m)) (s : Solver n m) : Solver n m :=
  { s with counts := s.counts.renumber σ }

@[simp] theorem counts_renumber : (s.renumber σ).counts = s.counts.renumber σ := rfl

@[simp] theorem sides_renumber : (s.renumber σ).sides = s.sides := rfl

@[simp] theorem pending_renumber : (s.renumber σ).pending = s.pending := rfl

@[simp] theorem ready_renumber : (s.renumber σ).ready = s.ready := rfl

/-! ### From a block to an arc -/

/-- An arc is looked up only where it is the only one, so it is found under its new number. -/
theorem missingArc?_eq_some (ht : (s.sides.side d b).Tallies s.counts g d b)
    (hopen : s.counts.openArcs g d b = {i}) : missingArc? g s b d = some i := by
  have hone : (s.sides.side d b).unknown = 1 := by
    rw [ht.unknown, hopen, Finset.card_singleton]
  rcases hfind : missingArc? g s b d with - | j
  · rw [missingArc?_eq_none hfind] at hopen
    exact absurd hopen.symm (Finset.singleton_ne_empty i)
  · rw [openArcs_eq_singleton ht hone hfind, Finset.singleton_inj] at hopen
    rw [hopen]

theorem notify_renumber (s : Solver n m) (b : Fin n) (d : Direction) :
    notify (s.renumber σ) b d = (notify s b d).renumber σ := by
  rw [notify, notify, apply_ite (renumber σ), apply_ite (renumber σ)]
  rfl

theorem assign_renumber (count : Count) : assign (g.renumber σ) i d count (s.renumber σ) =
    mapState (renumber σ) (assign g (σ i) d count s) := by
  simp only [assign, Network.get_renumber, counts_renumber, sides_renumber,
    Counts.setArc_renumber]
  rcases s.sides.settleArc (g.get (σ i)) d count with b' | sides
  · rfl
  · exact congrArg (EStateM.Result.ok ())
      (notify_renumber { s with counts := s.counts.setArc (σ i) count, sides } _ _)

theorem completeSide_renumber (ht : s.sides.Tallies s.counts g) (σ : Equiv.Perm (Fin m))
    (b : Fin n) (d : Direction) : completeSide (g.renumber σ) b d (s.renumber σ) =
      mapState (renumber σ) (completeSide g b d s) := by
  have hblock : (s.renumber σ).counts.blocks.get b = s.counts.blocks.get b := rfl
  rcases hb : s.counts.blocks.get b with - | count
  · simp only [completeSide, hblock, hb]
    rfl
  by_cases hone : (s.sides.side d b).unknown = 1
  · rcases hfind : missingArc? g s b d with - | i
    · have hunknown := (ht d b).unknown
      rw [hone, missingArc?_eq_none hfind] at hunknown
      cases hunknown
    have hopen : (s.counts.renumber σ).openArcs (g.renumber σ) d b = {σ.symm i} := by
      ext j
      rw [Counts.mem_openArcs_renumber, openArcs_eq_singleton (ht d b) hone hfind,
        Finset.mem_singleton, Finset.mem_singleton, Equiv.eq_symm_apply]
    have hfind' : missingArc? (g.renumber σ) (s.renumber σ) b d = some (σ.symm i) :=
      missingArc?_eq_some (Side.tallies_renumber_iff.2 (ht d b)) hopen
    rcases hrest : Count.sub? count (s.sides.side d b).total with - | rest
    · simp only [completeSide, hblock, hb, sides_renumber, if_pos hone, hfind, hfind', hrest]
      rfl
    · simp only [completeSide, hblock, hb, sides_renumber, if_pos hone, hfind, hfind', hrest]
      rw [assign_renumber, Equiv.apply_symm_apply]
  · have hone' : ¬ ((s.renumber σ).sides.side d b).unknown = 1 := hone
    simp only [completeSide, hblock, hb, if_neg hone, if_neg hone']
    rfl

theorem Invariant.serve_renumber {todo : Fin n → Direction → Prop} (h : s.Invariant g [] todo)
    (σ : Equiv.Perm (Fin m)) (b : Fin n) :
    serve (g.renumber σ) b (s.renumber σ) = mapState (renumber σ) (serve g b s) := by
  simp only [serve, bind, EStateM.bind, completeSide_renumber h.tallies]
  rcases hfirst : completeSide g b .outgoing s with ⟨⟨⟩, s₁⟩ | ⟨b', s₁⟩
  · exact completeSide_renumber (h.completeSide_eq_ok hfirst).1.tallies σ b .incoming
  · rfl

/-! ### From arcs to a block -/

theorem examine_renumber (s : Solver n m) (b : Fin n) :
    examine (s.renumber σ) b = (examine s b).renumber σ := by
  have himplied : (s.renumber σ).implied? b = s.implied? b := rfl
  rw [examine, examine, himplied]
  rcases s.implied? b with - | count <;> rfl

/-- What commutes with renumbering for single blocks does so for a list of blocks. -/
theorem foldl_renumber {f : Solver n m → Fin n → Solver n m}
    (hf : ∀ s b, f (s.renumber σ) b = (f s b).renumber σ) (bs : List (Fin n)) (s : Solver n m) :
    bs.foldl f (s.renumber σ) = (bs.foldl f s).renumber σ :=
  List.foldl_hom (renumber σ) hf

theorem sweep_renumber (s : Solver n m) : sweep (s.renumber σ) = (sweep s).renumber σ :=
  foldl_renumber examine_renumber s.pending.toList { s with pending := .empty }

/-! ### The first state -/

theorem enqueue_renumber (s : Solver n m) (b : Fin n) :
    enqueue (s.renumber σ) b = (enqueue s b).renumber σ := by
  rw [enqueue, enqueue, apply_ite (renumber σ)]
  rfl

/-- If the solver can start, it can start with renumbered arcs. -/
theorem start_renumber (h : start g c = .ok s) (σ : Equiv.Perm (Fin m)) :
    start (g.renumber σ) (c.renumber σ) = .ok (s.renumber σ) := by
  rcases hsides : Sides.ofArcs g c.arcs with b | sides
  · simp only [start, hsides] at h
    cases h
  simp only [start, hsides] at h
  cases h
  simp only [start, Sides.ofArcs_renumber hsides]
  exact congrArg Except.ok (foldl_renumber enqueue_renumber (List.finRange n)
    { counts := c, sides, pending := .empty, ready := .empty })

/-- If it cannot, it cannot with renumbered arcs either. -/
theorem exists_start_renumber_eq_error (h : start g c = .error b) (σ : Equiv.Perm (Fin m)) :
    ∃ b', start (g.renumber σ) (c.renumber σ) = .error b' := by
  rcases hstart : start (g.renumber σ) (c.renumber σ) with b' | s
  · exact ⟨b', rfl⟩
  · have hflow : ∀ d b, c.flow g d b < UInt64.size := fun d b => by
      rw [← c.flow_renumber g σ]
      exact exists_start_iff.1 ⟨s, hstart⟩ d b
    obtain ⟨s', hs'⟩ := exists_start_iff.2 hflow
    rw [h] at hs'
    cases hs'

/-! ### Rounds and runs -/

/-- What a round leads to, with renumbered arcs. -/
def Next.renumber (σ : Equiv.Perm (Fin m)) : Next n m → Next n m
  | .served s => .served (s.renumber σ)
  | .swept s => .swept (s.renumber σ)
  | .settled => .settled
  | .stalled s => .stalled (s.renumber σ)
  | .clash b s => .clash b (s.renumber σ)

theorem Valid.step_renumber (h : s.Valid g) (σ : Equiv.Perm (Fin m)) :
    Solver.step (g.renumber σ) (s.renumber σ) = (Solver.step g s).renumber σ := by
  rcases hpop : s.ready.pop? with - | ⟨b, ready⟩
  · simp only [Solver.step, ready_renumber, hpop, pending_renumber, sweep_renumber]
    rw [apply_ite (Next.renumber σ), apply_ite (Next.renumber σ)]
    rfl
  · have hserve : serve (g.renumber σ) b { s.renumber σ with ready } =
        mapState (renumber σ) (serve g b { s with ready }) :=
      (h.pop_ready hpop).serve_renumber σ b
    simp only [Solver.step, ready_renumber, hpop, hserve]
    rcases serve g b { s with ready } with ⟨⟨⟩, s'⟩ | ⟨b', s'⟩ <;> rfl

theorem Valid.run_renumber (h : s.Valid g) (σ : Equiv.Perm (Fin m)) :
    Solver.run (g.renumber σ) (s.renumber σ) =
      mapState (Counts.renumber σ) (Solver.run g s) := by
  refine Valid.run_induction (P := fun s r => Solver.run (g.renumber σ) (s.renumber σ) =
    mapState (Counts.renumber σ) r) ?next ?settled ?stalled ?clash h
  case next =>
    intro s s' r h _ _ hstep hr
    rw [Solver.run, h.step_renumber]
    rcases hstep with hstep | hstep
    · rw [hstep]
      exact hr
    · rw [hstep]
      exact hr
  case settled =>
    intro s h hstep
    rw [Solver.run, h.step_renumber, hstep]
    rfl
  case stalled =>
    intro s s' h hstep
    rw [Solver.run, h.step_renumber, hstep]
    rfl
  case clash =>
    intro s b s' h hstep
    rw [Solver.run, h.step_renumber, hstep]
    rfl

end Solver

/-! ### Completed counts -/

namespace Network

/-- If the solver can start, completing counts ends in the same way with renumbered arcs. -/
theorem complete_renumber_of_start {s : Solver n m} (h : Solver.start g c = .ok s)
    (σ : Equiv.Perm (Fin m)) :
    (g.renumber σ).complete (c.renumber σ) = mapState (Counts.renumber σ) (g.complete c) := by
  have hstart := Solver.start_renumber h σ
  have hrun := (Solver.valid_start h).1.run_renumber σ
  simp only [complete, h, hstart, hrun]
  rcases s.run g with ⟨⟨⟩, c'⟩ | ⟨o, c'⟩
  · have hblocks : (c'.renumber σ).unknownBlocks = c'.unknownBlocks := rfl
    simp only [mapState, hblocks, Counts.unknownArcs_renumber]
    split <;> rfl
  · rfl

/-- However the arcs are numbered, completing counts ends in the same way: it succeeds, or leaves as
many counts open, or meets a clash at the same block, and every block and arc has the same count in
the end. Only where a clash shows before the first round, it may be noticed at another block. -/
theorem complete_renumber (g : Network n m) (c : Counts n m) (σ : Equiv.Perm (Fin m)) :
    (∀ c', g.complete c = .ok () c' →
        (g.renumber σ).complete (c.renumber σ) = .ok () (c'.renumber σ)) ∧
      (∀ remaining c', g.complete c = .error (.undetermined remaining) c' →
        (g.renumber σ).complete (c.renumber σ) =
          .error (.undetermined remaining) (c'.renumber σ)) ∧
      ∀ b c', g.complete c = .error (.inconsistent b) c' →
        ∃ b', (g.renumber σ).complete (c.renumber σ) =
            .error (.inconsistent b') (c'.renumber σ) ∧
          (b' ≠ b → Solver.start g c = .error b ∧
            Solver.start (g.renumber σ) (c.renumber σ) = .error b') := by
  rcases hstart : Solver.start g c with b | s
  · obtain ⟨b', hstart'⟩ := Solver.exists_start_renumber_eq_error hstart σ
    rw [complete_of_start_eq_error hstart, complete_of_start_eq_error hstart']
    refine ⟨fun c' h => ?_, fun remaining c' h => ?_, fun b₁ c' h => ?_⟩
    · cases h
    · cases h
    · cases h
      exact ⟨b', rfl, fun _ => ⟨rfl, hstart'⟩⟩
  · rw [complete_renumber_of_start hstart]
    refine ⟨fun c' h => ?_, fun remaining c' h => ?_, fun b c' h => ⟨b, ?_, fun hne => ?_⟩⟩
    · rw [h]
      rfl
    · rw [h]
      rfl
    · rw [h]
      rfl
    · exact absurd rfl hne

/-- Two parallel arcs that are told apart by their counts get each the count of the other. Where two
blocks carry too much, the order of the arcs decides which one is named. -/
theorem complete_renumber_swap :
    let g : Network 3 3 := #v[⟨0, 1⟩, ⟨0, 1⟩, ⟨1, 2⟩]
    let c : Counts 3 3 := ⟨#v[none, none, none], #v[some 2, none, some 5]⟩
    let loops : Network 2 4 := #v[⟨0, 0⟩, ⟨1, 1⟩, ⟨0, 0⟩, ⟨1, 1⟩]
    let large : Counts 2 4 := ⟨#v[none, none], #v[some Count.max, some Count.max, some 1, some 1]⟩
    (g.renumber (Equiv.swap 0 1)).complete (c.renumber (Equiv.swap 0 1)) =
        .ok () ⟨#v[some 5, some 5, some 5], #v[some 3, some 2, some 5]⟩ ∧
      loops.complete large = .error (.inconsistent 0) large ∧
      ∃ b', (loops.renumber (Equiv.swap 2 3)).complete (large.renumber (Equiv.swap 2 3)) =
        .error (.inconsistent b') (large.renumber (Equiv.swap 2 3)) ∧ b' ≠ 0 := by
  intro g c loops large
  have hend : g.complete c = .ok () ⟨#v[some 5, some 5, some 5], #v[some 2, some 3, some 5]⟩ := by
    cbv
  have hlarge : loops.complete large = .error (.inconsistent 0) large := by cbv
  obtain ⟨b', hend', -⟩ := (complete_renumber loops large (Equiv.swap 2 3)).2.2 0 large hlarge
  refine ⟨(complete_renumber g c (Equiv.swap 0 1)).1 _ hend, hlarge, b', hend', ?_⟩
  have hloops : loops.renumber (Equiv.swap 2 3) = #v[⟨0, 0⟩, ⟨1, 1⟩, ⟨1, 1⟩, ⟨0, 0⟩] := by decide
  have hone : Solver.start (loops.renumber (Equiv.swap 2 3)) (large.renumber (Equiv.swap 2 3)) =
      .error 1 := by
    rw [hloops]
    cbv
  rw [complete_of_start_eq_error hone] at hend'
  cases hend'
  decide

end Network

end CoverageFlow
