import CoverageFlow.Graph.Build
import CoverageFlow.Proofs.Flow.Assignment

/-!
# Fresh function graphs

A graph built from the records of a function knows no count, and calls begin and end in it where
they should: no arc enters the entry, no arc leaves the exit.

## Main definitions

* `FunctionGraph.Fresh`: what holds of a graph that was just built.

## Main results

* `FunctionGraph.fresh_of_ofRecord`: the graph of a function is fresh.
-/

namespace CoverageFlow

variable {n : Nat}

/-- A computation with two parts succeeds if both do. -/
theorem bind_eq_ok {ε α β : Type} {x : Except ε α} {f : α → Except ε β} {b : β} :
    x >>= f = .ok b ↔ ∃ a, x = .ok a ∧ f a = .ok b := by
  cases x with
  | error e => exact ⟨nofun, nofun⟩
  | ok a => exact ⟨fun h => ⟨a, rfl, h⟩, fun ⟨_, ha, h⟩ => (Except.ok.inj ha) ▸ h⟩

/-- Errors that are told differently change no value. -/
theorem mapError_eq_ok {ε ε' α : Type} {f : ε → ε'} {x : Except ε α} {a : α} :
    x.mapError f = .ok a ↔ x = .ok a := by
  cases x with
  | error e => exact iff_of_false (by rintro ⟨⟩) (by rintro ⟨⟩)
  | ok a' => exact ⟨fun h => by cases h; rfl, fun h => by cases h; rfl⟩

/-- What holds at first and is kept by every step that succeeds holds at the end. -/
theorem foldlM_eq_ok_induction {ε α β : Type} {f : β → α → Except ε β} {P : β → Prop} {as : List α}
    {b b' : β} (h : as.foldlM f b = .ok b') (hb : P b)
    (hf : ∀ a ∈ as, ∀ b b', P b → f b a = .ok b' → P b') : P b' := by
  induction as generalizing b with
  | nil =>
    cases h
    exact hb
  | cons a as ih =>
    rw [List.foldlM_cons] at h
    obtain ⟨b₁, hfirst, hrest⟩ := bind_eq_ok.1 h
    obtain ⟨ha, has⟩ := List.forall_mem_cons.1 hf
    exact ih hrest (ha b b₁ hb hfirst) has

namespace Draft

theorem block_eq_ok_iff {i : BlockIndex} {b : Fin n} :
    block n i = .ok b ↔ i.val.toNat = b.val := by
  rw [block]
  split
  · next h => simp [Fin.ext_iff]
  · next h => exact ⟨by rintro ⟨⟩, fun heq => absurd (heq ▸ b.isLt) h⟩

/-! ### Entry and exit -/

/-- No arc enters the first block, and no arc leaves the last one. -/
def EndsFree (draft : Draft n) : Prop :=
  ∀ a ∈ draft.arcs, a.target.val ≠ 0 ∧ a.source.val ≠ n - 1

theorem endsFree_of_checkEnds {draft : Draft n} {two_le : PLift (2 ≤ n)}
    (h : draft.checkEnds = .ok two_le) : draft.EndsFree := by
  rw [checkEnds] at h
  split_ifs at h with hsize hentry hexit
  simp only [Array.any_eq_true', decide_eq_true_eq, not_exists, not_and] at hentry hexit
  exact fun a ha => ⟨hentry a ha, hexit a ha⟩

/-- The derived attributes change no end of an arc. -/
theorem map_toEnds_finish (draft : Draft n) :
    draft.finish.arcs.map Arc.toEnds = draft.arcs.map Arc.toEnds := by
  simp only [finish, markCallReturns, markUnconditional, Array.map_map]
  rfl

theorem EndsFree.finish {draft : Draft n} (h : draft.EndsFree) : draft.finish.EndsFree := by
  intro a ha
  have hmap : a.toEnds ∈ draft.arcs.map Arc.toEnds :=
    draft.map_toEnds_finish ▸ Array.mem_map_of_mem ha
  obtain ⟨a', ha', hends⟩ := Array.mem_map.1 hmap
  rw [← hends]
  exact h a' ha'

end Draft

namespace FunctionGraph

/-- A graph that was just built: no count is known, nothing enters the entry, and nothing leaves
the exit. -/
structure Fresh (f : FunctionGraph) : Prop where
  counts : f.counts = .unknown f.size f.numArcs
  merged : f.merged = false
  statistics : f.statistics = none
  target_ne_entry : ∀ i, (f.arcs.get i).target ≠ f.entry
  source_ne_exit : ∀ i, (f.arcs.get i).source ≠ f.exit

/-! ### Entry and exit of a fresh graph -/

theorem get_network (f : FunctionGraph) (i : Fin f.numArcs) :
    f.network.get i = (f.arcs.get i).toEnds := by
  rw [get_eq_getElem, get_eq_getElem]
  exact Vector.getElem_map ..

/-- No arc enters the entry of a fresh graph. -/
theorem Fresh.side_entry {f : FunctionGraph} (hf : f.Fresh) :
    f.network.side .incoming f.entry = ∅ := by
  refine Finset.eq_empty_of_forall_notMem fun i hi => hf.target_ne_entry i ?_
  rw [Network.mem_side, get_network] at hi
  exact hi

/-- No arc leaves the exit of a fresh graph. -/
theorem Fresh.side_exit {f : FunctionGraph} (hf : f.Fresh) :
    f.network.side .outgoing f.exit = ∅ := by
  refine Finset.eq_empty_of_forall_notMem fun i hi => hf.source_ne_exit i ?_
  rw [Network.mem_side, get_network] at hi
  exact hi

/-- A block that arcs enter is not the entry. -/
theorem Fresh.ne_entry {f : FunctionGraph} (hf : f.Fresh) {b : Fin f.size}
    (harcs : (f.network.side .incoming b).Nonempty) : b ≠ f.entry := by
  rintro rfl
  rw [hf.side_entry] at harcs
  exact Finset.not_nonempty_empty harcs

/-- A block that arcs leave is not the exit. -/
theorem Fresh.ne_exit {f : FunctionGraph} (hf : f.Fresh) {b : Fin f.size}
    (harcs : (f.network.side .outgoing b).Nonempty) : b ≠ f.exit := by
  rintro rfl
  rw [hf.side_exit] at harcs
  exact Finset.not_nonempty_empty harcs

/-! ### What was just built -/

variable {record : FunctionRecord Symbol} {f : FunctionGraph}

/-- The graph of a finished draft. -/
def ofDraft (record : FunctionRecord Symbol) (draft : Draft record.blocks.length)
    (two_le : 2 ≤ record.blocks.length) : FunctionGraph where
  toAnnouncement := record.toAnnouncement
  size := record.blocks.length
  numArcs := draft.arcs.size
  two_le := two_le
  blocks := draft.blocks
  arcs := draft.arcs.toVector
  counts := .unknown _ _
  merged := false
  statistics := none

/-- The graph of a function comes from three passes over its records. -/
theorem ofRecord_eq_ok_iff : ofRecord record = .ok f ↔ ∃ connected covered ends,
    record.arcs.foldlM Draft.connectAll (Draft.ofBlocks record.blocks) = .ok connected ∧
      record.lines.foldlM (Draft.coverLines record.source) connected = .ok covered ∧
      covered.checkEnds = .ok ends ∧ f = ofDraft record covered.finish ends.down := by
  rw [ofRecord, mapError_eq_ok, build]
  constructor
  · intro h
    obtain ⟨connected, hconnected, h⟩ := bind_eq_ok.1 h
    obtain ⟨covered, hcovered, h⟩ := bind_eq_ok.1 h
    obtain ⟨ends, hends, h⟩ := bind_eq_ok.1 h
    exact ⟨connected, covered, ends, hconnected, hcovered, hends, (Except.ok.inj h).symm⟩
  · rintro ⟨connected, covered, ends, hconnected, hcovered, hends, rfl⟩
    exact bind_eq_ok.2 ⟨connected, hconnected, bind_eq_ok.2 ⟨covered, hcovered,
      bind_eq_ok.2 ⟨ends, hends, rfl⟩⟩⟩

/-- A graph belongs to the function that its record announces. -/
theorem toAnnouncement_of_ofRecord (h : ofRecord record = .ok f) :
    f.toAnnouncement = record.toAnnouncement := by
  obtain ⟨-, -, -, -, -, -, rfl⟩ := ofRecord_eq_ok_iff.1 h
  rfl

theorem size_of_ofRecord (h : ofRecord record = .ok f) : f.size = record.blocks.length := by
  obtain ⟨-, -, -, -, -, -, rfl⟩ := ofRecord_eq_ok_iff.1 h
  rfl

/-- The graph of a function is fresh. -/
theorem fresh_of_ofRecord (h : ofRecord record = .ok f) : f.Fresh := by
  obtain ⟨connected, covered, ends, -, -, hends, rfl⟩ := ofRecord_eq_ok_iff.1 h
  have hfree := (Draft.endsFree_of_checkEnds hends).finish
  exact {
    counts := rfl
    merged := rfl
    statistics := rfl
    target_ne_entry := fun i he => (hfree _ (Array.getElem_mem i.isLt)).1 (congrArg Fin.val he)
    source_ne_exit := fun i he => (hfree _ (Array.getElem_mem i.isLt)).2 (congrArg Fin.val he) }

end FunctionGraph

end CoverageFlow
