import CoverageFlow.Proofs.Graph.Convergence
import CoverageFlow.Proofs.Graph.LifeCycle

/-!
# The statistics of a merged function

The statistics of a function are read off its completed counts: calls at the entry, returns at the
arcs into the exit, and how many blocks were executed. Though the completed counts need not conserve
flow everywhere, they do at the entry and at the exit. Each of these blocks has arcs on one side
only, and when it was built the graph knew no count of a block. So the count of the entry can only
have come from the arcs that leave it, and that of the exit from the arcs that enter it. Hence the
returns are a part of the count of the exit, and no sum of them is too large for a count.

## Main definitions

* `CallStatistics.SumsUp`: what the statistics of a function tell about its counts.

## Main results

* `FunctionGraph.Fresh.balanced_outer`: completed counts conserve flow at the entry and the exit.
* `FunctionGraph.merge_sumsUp`: the statistics sum up the counts of a merged function.
-/

namespace CoverageFlow

/-- The statistics sum up the counts of a function, which are all known. -/
structure CallStatistics.SumsUp (s : CallStatistics) (f : FunctionGraph) : Prop where
  known : ∀ x, f.counts.of x ≠ none
  /-- The calls are the count of the entry. -/
  called : s.called = f.counts.value (.inl f.entry)
  /-- They are what the arcs that leave the entry carry. -/
  called_eq_flow : s.called = f.counts.flow f.network .outgoing f.entry
  /-- The count of the exit is what the arcs that enter it carry. -/
  exit_eq_flow : f.counts.value (.inl f.exit) = f.counts.flow f.network .incoming f.exit
  /-- Together with what fake arcs carry into the exit, the returns are the count of the exit. -/
  returned : s.returned + ∑ i ∈ f.network.side .incoming f.exit with (f.arcs.get i).attr.fake,
    f.counts.value (.inr i) = f.counts.value (.inl f.exit)
  returned_le : s.returned ≤ Count.max.toNat
  /-- Of the blocks between entry and exit, those with a count that is not zero were executed. -/
  executedBlocks : s.executedBlocks =
    Finset.card {b | b ≠ f.entry ∧ b ≠ f.exit ∧ 0 < f.counts.value (.inl b)}
  executedBlocks_le : s.executedBlocks ≤ f.innerBlockCount

namespace FunctionGraph

variable {f f' : FunctionGraph} {data : FunctionData} {c : Counts f.size f.numArcs}

/-! ### Entry and exit -/

/-- In a fresh graph the count of the entry comes from the arcs that leave it, and the count of the
exit from the arcs that enter it. -/
theorem Fresh.balanced_outer (hf : f.Fresh)
    (hend : f.network.complete (f.instrumentedCounts data.counts) = .ok () c) (d : Direction) :
    c.Balanced f.network d.opposite (f.outer d) := by
  obtain ⟨hentails, hmissing⟩ := Network.complete_eq_ok hend
  have hfound : Sum.inl (f.outer d) ∈ (f.instrumentedCounts data.counts).found c :=
    Counts.mem_found.2 ⟨hf.get_blocks (f.outer d), Counts.of_ne_none hmissing _⟩
  obtain ⟨d', b, harcs, hmem, hbalanced⟩ := hentails.exists_balanced hfound
  obtain rfl := Network.eq_of_inl_mem_members hmem
  rcases d.eq_or_eq_opposite d' with rfl | rfl
  · -- This side has no arcs to deduce a count from.
    rw [hf.side_outer] at harcs
    exact absurd harcs Finset.not_nonempty_empty
  · exact hbalanced

/-! ### Returns -/

/-- The arcs by which a call returns are those that enter the exit and are not fake. -/
theorem filter_target_exit (f : FunctionGraph) :
    (Finset.univ.filter fun i =>
      (f.arcs.get i).target = f.exit ∧ (f.arcs.get i).attr.fake = false) =
        (f.network.side .incoming f.exit).filter fun i => ¬ (f.arcs.get i).attr.fake = true := by
  ext i
  rw [Finset.mem_filter_univ, Finset.mem_filter, Network.mem_side, get_network,
    Bool.not_eq_true]
  rfl

/-- Returns and fake arcs make up what enters the exit. -/
theorem returned_add_sum_fake (f : FunctionGraph) (c : Counts f.size f.numArcs) :
    (f.statisticsOf c.value).returned +
        ∑ i ∈ f.network.side .incoming f.exit with (f.arcs.get i).attr.fake, c.value (.inr i) =
      c.flow f.network .incoming f.exit := by
  rw [statisticsOf, filter_target_exit, add_comm]
  exact Finset.sum_filter_add_sum_filter_not _ _ _

/-! ### Executed blocks -/

/-- Entry and exit are two blocks. -/
theorem card_ne_entry_ne_exit (f : FunctionGraph) :
    (Finset.univ.filter fun b => b ≠ f.entry ∧ b ≠ f.exit).card = f.innerBlockCount := by
  have hinner : (Finset.univ.filter fun b => b ≠ f.entry ∧ b ≠ f.exit) =
      ({f.entry, f.exit} : Finset (Fin f.size))ᶜ := by
    ext b
    simp
  rw [hinner, Finset.card_compl, Fintype.card_fin, Finset.card_pair f.entry_ne_exit]
  rfl

/-- Only blocks between entry and exit count as executed. -/
theorem card_executed_le (f : FunctionGraph) (φ : Assignment ℕ f.size f.numArcs) :
    Finset.card {b | b ≠ f.entry ∧ b ≠ f.exit ∧ 0 < φ (.inl b)} ≤ f.innerBlockCount := by
  rw [← f.card_ne_entry_ne_exit]
  refine Finset.card_le_card fun b hb => ?_
  obtain ⟨hentry, hexit, -⟩ := (Finset.mem_filter_univ b).1 hb
  exact (Finset.mem_filter_univ b).2 ⟨hentry, hexit⟩

/-! ### Merged functions -/

/-- The statistics of a fresh graph sum up its counts once they are completed. -/
theorem Fresh.sumsUp (hf : f.Fresh)
    (hend : f.network.complete (f.instrumentedCounts data.counts) = .ok () c) :
    (f.statisticsOf c.value).SumsUp (f.withCounts c) := by
  have hentry : c.Balanced f.network .outgoing f.entry := hf.balanced_outer hend .incoming
  have hexit : c.Balanced f.network .incoming f.exit := hf.balanced_outer hend .outgoing
  have hreturned := (f.returned_add_sum_fake c).trans hexit.balance.symm
  rw [withCounts_eq]
  exact {
    known := Counts.of_ne_none (Network.complete_eq_ok hend).2
    called := rfl
    called_eq_flow := hentry.balance
    exit_eq_flow := hexit.balance
    returned := hreturned
    returned_le := (Nat.le_add_right _ _).trans (hreturned.le.trans (c.value_le_max _))
    executedBlocks := rfl
    executedBlocks_le := f.card_executed_le c.value }

/-- A record can only be merged into a graph that is as it was built. -/
theorem Fresh.after_eq_of_merge (hf : f.Fresh) {before : List FunctionData}
    (h : (f.after before).merge data = .ok () f') : f.after before = f := by
  obtain ⟨-, hafter⟩ | ⟨_, _, _, -, -, htakes, hafter⟩ := after_cases hf.merged before
  · exact hafter
  · rw [hafter] at h
    exact absurd ⟨f', h⟩ (not_accepts_of_merged htakes.merged_afterMerge)

/-- Once a record was merged into the graph of a function, the graph has statistics that sum up its
counts, and they stay. -/
theorem merge_sumsUp {record : FunctionRecord Symbol} (hf : ofRecord record = .ok f)
    (before : List FunctionData) (data : FunctionData) (f' : FunctionGraph)
    (h : (f.after before).merge data = .ok () f') :
    ∃ s, f'.statistics = some s ∧ s.SumsUp f' ∧ ∀ later, f'.after later = f' := by
  have hfresh := fresh_of_ofRecord hf
  rw [hfresh.after_eq_of_merge h] at h
  obtain ⟨-, c, hend, rfl⟩ := merge_eq_ok_iff.1 h
  refine ⟨f.statisticsOf c.value, ?_, hfresh.sumsUp hend, after_of_merged rfl⟩
  rw [withCounts_eq]

/-- A chain is entered less often than it is left. After a record that does not belong to it, these
counts are merged, and the calls and returns are told as they were counted. -/
theorem merge_sumsUp_chain : ∃ f',
    (chain.after [⟨⟨1⟩, 7, [4, 4]⟩]).merge ⟨⟨1⟩, 0, [3, 5]⟩ = .ok () f' ∧
      f'.statistics = some { called := 3, returned := 5, executedBlocks := 1 } ∧
      CallStatistics.SumsUp { called := 3, returned := 5, executedBlocks := 1 } f' := by
  have hrefused : ¬ chain.Takes ⟨⟨1⟩, 7, [4, 4]⟩ := fun h => absurd h.checksum (by decide)
  have hafter : chain.after [⟨⟨1⟩, 7, [4, 4]⟩] = chain := afterMerge_of_not_takes hrefused
  have hmerge : (chain.after [⟨⟨1⟩, 7, [4, 4]⟩]).merge ⟨⟨1⟩, 0, [3, 5]⟩ =
      .ok () (chain.withCounts ⟨#v[some 3, some 5, some 5], #v[some 3, some 5]⟩) := by
    rw [hafter]
    exact merge_eq_ok_iff.2 ⟨⟨rfl, rfl, rfl⟩, _, by cbv, rfl⟩
  obtain ⟨s, hs, hsum, -⟩ := merge_sumsUp ofRecord_chainRecord [⟨⟨1⟩, 7, [4, 4]⟩] _ _ hmerge
  cases hs
  exact ⟨_, hmerge, rfl, hsum⟩

end FunctionGraph

end CoverageFlow
