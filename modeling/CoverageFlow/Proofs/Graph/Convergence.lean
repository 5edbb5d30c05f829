import CoverageFlow.Proofs.Flow.Forest
import CoverageFlow.Proofs.Graph.Conservation
import CoverageFlow.Proofs.Graph.Execution

/-!
# Spanning trees determine all counts

The arcs that are not counted at run time form a spanning tree, together with one link that leads
from the exit back to the entry. If they do, the counts of the other arcs determine everything, and
completing them ends with all counts or with an inconsistency.

For otherwise some nonzero values would conserve flow and vanish on all counted arcs. Such values
flow through the tree only. What they bring to the exit they take from the entry, so the link leads
it back, and they flow through a forest. There is no such flow but zero.

If the tree spans the whole function, it leaves as many counts open as there are sides with arcs, so
all accepted counts conserve flow.

## Main definitions

* `FunctionGraph.outer`: the block that has no arcs on a side.
* `FunctionGraph.treeLinks`: the arcs on the tree and the link from the exit to the entry.

## Main results

* `FunctionGraph.Fresh.eq_zero_of_acyclic`: nothing flows through the tree.
* `FunctionGraph.merge_converges`: merging ends with all counts or with an inconsistency.
* `FunctionGraph.merge_conservesFlow_of_spanning`: accepted counts of a spanning tree conserve flow.
-/

namespace CoverageFlow

namespace FunctionGraph

variable {f f' : FunctionGraph} {data : FunctionData} {d : Direction} {b : Fin f.size}

/-- The block without arcs on a side: the exit is not left, the entry is not entered. -/
def outer (f : FunctionGraph) : Direction → Fin f.size
  | .outgoing => f.exit
  | .incoming => f.entry

/-- An arc on the spanning tree, or the link that leads from the exit back to the entry. -/
abbrev TreeLink (f : FunctionGraph) : Type :=
  Option {i : Fin f.numArcs // (f.arcs.get i).attr.onTree}

/-- The block where a link begins or ends. -/
def linkEnd (f : FunctionGraph) (d : Direction) : f.TreeLink → Fin f.size
  | none => f.outer d
  | some i => (f.arcs.get i).near d

/-- The arcs on the spanning tree, and one more link that joins entry and exit. -/
def treeLinks (f : FunctionGraph) : Links (Fin f.size) f.TreeLink := fun link =>
  s(f.linkEnd .outgoing link, f.linkEnd .incoming link)

/-! ### Sides of a function -/

theorem side_nonempty_of_ne_outer (hentered : ∀ b ≠ f.entry, (f.network.side .incoming b).Nonempty)
    (hleft : ∀ b ≠ f.exit, (f.network.side .outgoing b).Nonempty) :
    ∀ d, ∀ b ≠ f.outer d, (f.network.side d b).Nonempty
  | .outgoing => hleft
  | .incoming => hentered

theorem Fresh.side_outer (hf : f.Fresh) (d : Direction) : f.network.side d (f.outer d) = ∅ := by
  cases d
  · exact hf.side_exit
  · exact hf.side_entry

/-- Every other block has arcs on the side. -/
theorem Fresh.side_nonempty_iff (hf : f.Fresh)
    (hsides : ∀ d, ∀ b ≠ f.outer d, (f.network.side d b).Nonempty) :
    (f.network.side d b).Nonempty ↔ b ≠ f.outer d := by
  refine ⟨?_, hsides d b⟩
  rintro harcs rfl
  rw [hf.side_outer] at harcs
  exact Finset.not_nonempty_empty harcs

/-! ### Flows through the tree -/

theorem mem_instrumented {i : Fin f.numArcs} :
    i ∈ f.instrumented ↔ (f.arcs.get i).attr.onTree = false := by
  simp [instrumented]

/-- What flows through a link: on the way back to the entry, all that left it. -/
def linkValue (f : FunctionGraph) (δ : Assignment ℤ f.size f.numArcs) : f.TreeLink → ℤ
  | none => δ (.inl f.entry)
  | some i => δ (.inr i)

section Flow

variable {δ : Assignment ℤ f.size f.numArcs}

/-- What flows through the links at a block, if nothing flows through arcs off the tree. -/
theorem sum_linkValue (hδ : ∀ i ∈ f.instrumented, δ (.inr i) = 0) (d : Direction)
    (b : Fin f.size) : ∑ link with f.linkEnd d link = b, f.linkValue δ link =
      (if f.outer d = b then δ (.inl f.entry) else 0) + ∑ i ∈ f.network.side d b, δ (.inr i) := by
  let value (i : Fin f.numArcs) : ℤ := if (f.arcs.get i).near d = b then δ (.inr i) else 0
  have htree : ∑ i : {i // (f.arcs.get i).attr.onTree}, value i =
      ∑ i ∈ f.network.side d b, δ (.inr i) := by
    have hoff (i : Fin f.numArcs)
        (hi : i ∉ Finset.univ.filter fun i => (f.arcs.get i).attr.onTree) : value i = 0 := by
      have hvalue := hδ i (mem_instrumented.2 (by simpa using hi))
      simp only [value, hvalue, ite_self]
    calc ∑ i : {i // (f.arcs.get i).attr.onTree}, value i
        = ∑ i with (f.arcs.get i).attr.onTree, value i := (Finset.sum_subtype _ (by simp) _).symm
      _ = ∑ i, value i := Finset.sum_subset (Finset.subset_univ _) fun i _ => hoff i
      _ = ∑ i ∈ f.network.side d b, δ (.inr i) := by
        simp only [value, Network.side, get_network, Finset.sum_filter]
  rw [Finset.sum_filter, Fintype.sum_option]
  exact congrArg₂ (· + ·) rfl htree

/-- Where every other block has arcs on a side, the excess of a flow on these sides is what passes
the block without them. -/
theorem Fresh.sum_excess (hf : f.Fresh) (hδ : δ.Conserves f.network)
    (hsides : ∀ b ≠ f.outer d, (f.network.side d b).Nonempty) :
    ∑ b, f.network.excess δ (d, b) = δ (.inl (f.outer d)) := by
  rw [Finset.sum_eq_single (f.outer d)]
  · rw [Network.excess_apply, hf.side_outer, Finset.sum_empty, sub_zero]
  · exact fun b _ hb => Network.excess_eq_zero_iff.2 (hδ d b (hsides b hb))
  · exact fun hnot => absurd (Finset.mem_univ _) hnot

/-- What leaves the entry arrives at the exit. -/
theorem Fresh.exit_eq_entry (hf : f.Fresh) (hδ : δ.Conserves f.network)
    (hsides : ∀ d, ∀ b ≠ f.outer d, (f.network.side d b).Nonempty) :
    δ (.inl f.exit) = δ (.inl f.entry) :=
  calc δ (.inl f.exit) = ∑ b, f.network.excess δ (.outgoing, b) :=
        (hf.sum_excess hδ (hsides .outgoing)).symm
    _ = ∑ b, f.network.excess δ (.incoming, b) := Network.sum_excess δ _ _
    _ = δ (.inl f.entry) := hf.sum_excess hδ (hsides .incoming)

/-- Nothing flows through the tree. -/
theorem Fresh.eq_zero_of_acyclic (hf : f.Fresh) (hδ : δ.Conserves f.network)
    (hsides : ∀ d, ∀ b ≠ f.outer d, (f.network.side d b).Nonempty)
    (hoff : ∀ i ∈ f.instrumented, δ (.inr i) = 0) (hforest : f.treeLinks.Acyclic) : δ = 0 := by
  have hpassed (d : Direction) (b : Fin f.size) :
      ∑ link with f.linkEnd d link = b, f.linkValue δ link = δ (.inl b) := by
    rw [sum_linkValue hoff]
    split
    · next hb =>
      subst hb
      rw [hf.side_outer, Finset.sum_empty, add_zero]
      cases d
      · exact (hf.exit_eq_entry hδ hsides).symm
      · rfl
    · next hb => rw [zero_add, hδ d b (hsides d b (Ne.symm hb))]
  have hlinks : f.linkValue δ = 0 := hforest.eq_zero_of_balanced fun b => by
    rw [hpassed .outgoing, hpassed .incoming]
  funext x
  rcases x with b | i
  · rw [← hpassed .incoming b, hlinks]
    exact Finset.sum_const_zero
  · by_cases hi : (f.arcs.get i).attr.onTree
    · exact congrFun hlinks (some ⟨i, hi⟩)
    · exact hoff i (mem_instrumented.2 (by simpa using hi))

end Flow

/-! ### Merging counts of a spanning tree -/

/-- If every block but the entry is entered, every block but the exit is left, and the arcs on the
tree form a forest together with a link between entry and exit, then merging counts that pass the
checks ends with all counts or with an inconsistency. -/
theorem merge_converges {record : FunctionRecord Symbol} (hf : ofRecord record = .ok f)
    (hentered : ∀ b ≠ f.entry, (f.network.side .incoming b).Nonempty)
    (hleft : ∀ b ≠ f.exit, (f.network.side .outgoing b).Nonempty)
    (hforest : f.treeLinks.Acyclic) (data : FunctionData) (hchecksum : data.checksum = f.checksum)
    (hlength : data.counts.length = f.instrumented.length) :
    (∃ f', f.merge data = .ok () f') ∨
      ∃ b f', f.merge data = .error ⟨.inconsistentFlow f.name b, [.function f.name]⟩ f' := by
  have hfresh := fresh_of_ofRecord hf
  have htakes : f.Takes data := ⟨hchecksum, hlength, hfresh.merged⟩
  have hsides := side_nonempty_of_ne_outer hentered hleft
  rcases h : f.merge data with ⟨⟨⟩, f'⟩ | ⟨e, f'⟩
  · exact .inl ⟨f', rfl⟩
  obtain ⟨hrefused, -⟩ | ⟨-, o, c, hend, rfl, -⟩ := merge_eq_error h
  · exact absurd htakes hrefused
  cases o with
  | inconsistent b => exact .inr ⟨b, f', rfl⟩
  | undetermined remaining =>
    obtain ⟨hentails, hsaturated, hmissing⟩ := Network.complete_eq_undetermined hend
    obtain ⟨δ, hne, hδ, hconserves⟩ := hsaturated.exists_circulation hmissing
    refine absurd (hfresh.eq_zero_of_acyclic hconserves hsides (fun i hi => ?_) hforest) hne
    exact hδ (.inr i) (hentails.extends.of_ne_none (instrumentedCounts_ne_none hlength hi))

/-- The counts of three arcs of `fork` are completed or inconsistent. -/
theorem merge_converges_fork :
    (∀ b ≠ fork.entry, (fork.network.side .incoming b).Nonempty) ∧
      (∀ b ≠ fork.exit, (fork.network.side .outgoing b).Nonempty) ∧ fork.treeLinks.Acyclic ∧
      ((∃ f', fork.merge ⟨⟨1⟩, 0, [2, 1, 1]⟩ = .ok () f') ∨
        ∃ b f', fork.merge ⟨⟨1⟩, 0, [2, 1, 1]⟩ =
          .error ⟨.inconsistentFlow "f" b, [.function "f"]⟩ f') := by
  have hentered : ∀ b ≠ fork.entry, (fork.network.side .incoming b).Nonempty := by
    rw [network_fork]
    decide
  have hleft : ∀ b ≠ fork.exit, (fork.network.side .outgoing b).Nonempty := by
    rw [network_fork]
    decide
  have hforest : fork.treeLinks.Acyclic := by decide
  exact ⟨hentered, hleft, hforest,
    merge_converges ofRecord_forkRecord hentered hleft hforest ⟨⟨1⟩, 0, [2, 1, 1]⟩ rfl rfl⟩

/-- If every block but the entry is entered, every block but the exit is left, and all but two
blocks have an arc on the tree, then all accepted counts conserve flow. -/
theorem merge_conservesFlow_of_spanning {record : FunctionRecord Symbol}
    (hf : ofRecord record = .ok f)
    (hentered : ∀ b ≠ f.entry, (f.network.side .incoming b).Nonempty)
    (hleft : ∀ b ≠ f.exit, (f.network.side .outgoing b).Nonempty)
    (htree : f.numArcs - f.instrumented.length + 2 = f.size) (h : f.merge data = .ok () f') :
    f'.ConservesFlow := by
  have hfresh := fresh_of_ofRecord hf
  obtain ⟨htakes, c, hend, rfl⟩ := merge_eq_ok_iff.1 h
  obtain ⟨hentails, hmissing⟩ := Network.complete_eq_ok hend
  rw [hfresh.conservesFlow_withCounts_iff]
  intro d b harcs
  refine hentails.balanced_of_card_le hmissing ?_ harcs
  have hsides := Network.card_sides fun d b =>
    hfresh.side_nonempty_iff (d := d) (b := b) (side_nonempty_of_ne_outer hentered hleft)
  rw [hfresh.card_missing htakes.length]
  omega

end FunctionGraph

end CoverageFlow
