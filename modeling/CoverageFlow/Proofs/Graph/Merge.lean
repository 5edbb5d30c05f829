import CoverageFlow.Graph.Merge
import CoverageFlow.Proofs.Flow.Deduction
import CoverageFlow.Proofs.Graph.Build

/-!
# Merging counts

Merging ends in one of three ways: the counts are refused, they are written but cannot be
completed, or they are completed. A fresh graph knows exactly the written counts before they are
completed, those of its instrumented arcs.

## Main definitions

* `FunctionGraph.Takes`: the data of a function passes all checks.
* `FunctionGraph.withCounts`: the graph after its counts were completed.
* `FunctionGraph.statisticsOf`: the statistics that values of all blocks and arcs mean.

## Main results

* `FunctionGraph.merge_eq_ok_iff`, `FunctionGraph.merge_eq_error`: how merging ends.
* `FunctionGraph.map_get_instrumentedCounts`: the written counts are read back in their order.
* `FunctionGraph.Fresh.extends_iff`: when an assignment has the written counts of a fresh graph.
* `FunctionGraph.withCounts_eq`: the completed graph with its statistics.
-/

namespace CoverageFlow

variable {n m : ℕ}

/-! ### Writing counts one after the other -/

namespace Counts

/-- The counts after those of some arcs were written. -/
def setArcs (c : Counts n m) (entries : List (Fin m × Count)) : Counts n m :=
  entries.foldl (fun c entry => c.setArc entry.1 entry.2) c

theorem setArcs_cons (c : Counts n m) (entry : Fin m × Count) (entries : List (Fin m × Count)) :
    c.setArcs (entry :: entries) = (c.setArc entry.1 entry.2).setArcs entries := rfl

@[simp] theorem blocks_setArcs (c : Counts n m) (entries : List (Fin m × Count)) :
    (c.setArcs entries).blocks = c.blocks := by
  induction entries generalizing c with
  | nil => rfl
  | cons entry entries ih => rw [setArcs_cons, ih, blocks_setArc]

/-- Arcs that are not written keep their counts. -/
theorem get_setArcs_of_notMem (c : Counts n m) {entries : List (Fin m × Count)} {i : Fin m}
    (h : i ∉ entries.map Prod.fst) : (c.setArcs entries).arcs.get i = c.arcs.get i := by
  induction entries generalizing c with
  | nil => rfl
  | cons entry entries ih =>
    obtain ⟨hne, hrest⟩ := not_or.1 (mt List.mem_cons.2 h)
    rw [setArcs_cons, ih _ hrest, get_arcs_setArc, if_neg (Ne.symm hne)]

/-- If no arc is written twice, the counts are read back in their order. -/
theorem map_get_setArcs (c : Counts n m) {is : List (Fin m)} (his : is.Nodup)
    {counts : List Count} (hlen : counts.length = is.length) :
    is.map (c.setArcs (is.zip counts)).arcs.get = counts.map some := by
  induction is generalizing c counts with
  | nil => rw [List.length_eq_zero_iff.1 hlen]; rfl
  | cons i is ih =>
    obtain ⟨count, counts, rfl⟩ := List.exists_cons_of_length_eq_add_one hlen
    obtain ⟨hi, his⟩ := List.nodup_cons.1 his
    have hlen : counts.length = is.length := Nat.succ.inj hlen
    have hfirst : i ∉ (is.zip counts).map Prod.fst := by
      rwa [List.map_fst_zip hlen.ge]
    rw [List.zip_cons_cons, setArcs_cons, List.map_cons, List.map_cons, ih _ his hlen,
      get_setArcs_of_notMem _ hfirst, get_arcs_setArc, if_pos rfl]

end Counts

namespace FunctionGraph

variable {f f' : FunctionGraph} {data : FunctionData}

/-! ### How merging ends -/

/-- The data of a function passes all checks, and is the first to do so. -/
structure Takes (f : FunctionGraph) (data : FunctionData) : Prop where
  checksum : data.checksum = f.checksum
  length : data.counts.length = f.instrumented.length
  unmerged : f.merged = false

/-- The graph after its counts were completed. -/
def withCounts (f : FunctionGraph) (counts : Counts f.size f.numArcs) : FunctionGraph :=
  let f := { f with merged := true, counts }
  { f with statistics := some f.callStatistics }

/-- Merging succeeds if the data passes all checks and the counts can be completed. -/
theorem merge_eq_ok_iff : f.merge data = .ok () f' ↔ f.Takes data ∧
    ∃ c, f.network.complete (f.instrumentedCounts data.counts) = .ok () c ∧
      f' = f.withCounts c := by
  constructor
  · intro h
    simp only [merge] at h
    split_ifs at h with hchecksum hlength hmerged
    rcases hend : f.network.complete (f.instrumentedCounts data.counts) with ⟨⟨⟩, c⟩ | ⟨o, c⟩
    · rw [hend] at h
      cases h
      exact ⟨⟨not_not.1 hchecksum, not_not.1 hlength, Bool.eq_false_iff.2 hmerged⟩, c, rfl, rfl⟩
    · rw [hend] at h
      cases h
  · rintro ⟨⟨hchecksum, hlength, hmerged⟩, c, hend, rfl⟩
    simp only [merge, hchecksum, hlength, hmerged, hend, ne_eq, not_true_eq_false, if_false,
      Bool.false_eq_true]
    rfl

/-- Where merging fails, the data was refused and nothing has changed, or the counts were written
but could not be completed. -/
theorem merge_eq_error {e : Failure} (h : f.merge data = .error e f') :
    (¬ f.Takes data ∧ f' = f ∧ (e = .bare (.checksumMismatch f.name f.checksum data.checksum) ∨
        e = .bare (.countsMismatch f.name f.instrumented.length data.counts.length) ∨
        e = .bare (.malformedGraph f.name .mergedTwice))) ∨
      f.Takes data ∧ ∃ o c, f.network.complete (f.instrumentedCounts data.counts) = .error o c ∧
        e = ⟨o.error f.name, [.function f.name]⟩ ∧ f' = { f with merged := true, counts := c } := by
  simp only [merge] at h
  split_ifs at h with hchecksum hlength hmerged
  · cases h
    exact .inl ⟨fun htakes => hchecksum htakes.checksum, rfl, .inl rfl⟩
  · cases h
    exact .inl ⟨fun htakes => hlength htakes.length, rfl, .inr (.inl rfl)⟩
  · cases h
    refine .inl ⟨fun htakes => ?_, rfl, .inr (.inr rfl)⟩
    rw [htakes.unmerged] at hmerged
    cases hmerged
  · rcases hend : f.network.complete (f.instrumentedCounts data.counts) with ⟨⟨⟩, c⟩ | ⟨o, c⟩
    · rw [hend] at h
      cases h
    · rw [hend] at h
      cases h
      exact .inr ⟨⟨not_not.1 hchecksum, not_not.1 hlength, Bool.eq_false_iff.2 hmerged⟩,
        o, c, rfl, rfl, rfl⟩

/-- Data that passes all checks is written, even if the counts cannot be completed. -/
theorem Takes.merge_eq_error (h : f.Takes data) {o : Obstacle f.size}
    {c : Counts f.size f.numArcs}
    (hend : f.network.complete (f.instrumentedCounts data.counts) = .error o c) :
    f.merge data =
      .error ⟨o.error f.name, [.function f.name]⟩ { f with merged := true, counts := c } := by
  simp only [merge, h.checksum, h.length, h.unmerged, hend, ne_eq, not_true_eq_false, if_false,
    Bool.false_eq_true]

/-! ### The written counts -/

theorem instrumentedCounts_eq (f : FunctionGraph) (counts : List Count) :
    f.instrumentedCounts counts = f.counts.setArcs (f.instrumented.zip counts) := rfl

theorem nodup_instrumented (f : FunctionGraph) : f.instrumented.Nodup :=
  (List.nodup_finRange f.numArcs).filter _

/-- The written counts are read back in their order. -/
theorem map_get_instrumentedCounts {counts : List Count}
    (hlen : counts.length = f.instrumented.length) :
    f.instrumented.map (f.instrumentedCounts counts).arcs.get = counts.map some := by
  rw [instrumentedCounts_eq, Counts.map_get_setArcs f.counts f.nodup_instrumented hlen]

theorem instrumentedCounts_ne_none {counts : List Count}
    (hlen : counts.length = f.instrumented.length) {i : Fin f.numArcs} (hi : i ∈ f.instrumented) :
    (f.instrumentedCounts counts).arcs.get i ≠ none := by
  have hmem : (f.instrumentedCounts counts).arcs.get i ∈ counts.map some := by
    rw [← map_get_instrumentedCounts hlen]
    exact List.mem_map_of_mem hi
  obtain ⟨count, -, hcount⟩ := List.mem_map.1 hmem
  rw [← hcount]
  exact Option.some_ne_none count

namespace Fresh

variable {counts : List Count}

theorem get_blocks (hf : f.Fresh) (b : Fin f.size) :
    (f.instrumentedCounts counts).blocks.get b = none := by
  rw [instrumentedCounts_eq, Counts.blocks_setArcs, hf.counts]
  exact get_replicate none b

/-- Of a fresh graph only the instrumented arcs have counts. -/
theorem get_arcs_eq_none (hf : f.Fresh) (hlen : counts.length = f.instrumented.length)
    {i : Fin f.numArcs} (hi : i ∉ f.instrumented) :
    (f.instrumentedCounts counts).arcs.get i = none := by
  rw [instrumentedCounts_eq, Counts.get_setArcs_of_notMem, hf.counts]
  · exact get_replicate none i
  · rwa [List.map_fst_zip hlen.ge]

/-- An assignment has the written counts of a fresh graph if they are its values on the
instrumented arcs, in their order. -/
theorem extends_iff (hf : f.Fresh) (hlen : counts.length = f.instrumented.length)
    {φ : Assignment ℕ f.size f.numArcs} : φ.Extends (f.instrumentedCounts counts) ↔
      f.instrumented.map (fun i => φ (.inr i)) = counts.map UInt64.toNat := by
  have hread : counts.map UInt64.toNat =
      f.instrumented.map fun i => (f.instrumentedCounts counts).value (.inr i) := by
    have hmap := congrArg (List.map Counts.amount) (map_get_instrumentedCounts hlen)
    rw [List.map_map, List.map_map] at hmap
    exact hmap.symm
  rw [hread, List.map_inj_left]
  constructor
  · intro h i hi
    obtain ⟨count, hcount⟩ := Option.ne_none_iff_exists'.1 (instrumentedCounts_ne_none hlen hi)
    rw [Counts.value_eq (x := .inr i) hcount]
    exact h (.inr i) count hcount
  · rintro h (b | i) count hcount
    · rw [Counts.of_inl, hf.get_blocks b] at hcount
      cases hcount
    · by_cases hi : i ∈ f.instrumented
      · rw [h i hi, Counts.value_eq hcount]
      · rw [Counts.of_inr, hf.get_arcs_eq_none hlen hi] at hcount
        cases hcount

/-- All blocks of a fresh graph and its arcs that are not instrumented lack their counts. -/
theorem card_missing (hf : f.Fresh) (hlen : counts.length = f.instrumented.length) :
    (f.instrumentedCounts counts).missing.card =
      f.size + (f.numArcs - f.instrumented.length) := by
  have hmissing : (f.instrumentedCounts counts).missing =
      Finset.univ.disjSum f.instrumented.toFinsetᶜ := by
    ext x
    rcases x with b | i
    · simp [hf.get_blocks b]
    · by_cases hi : i ∈ f.instrumented
      · simp [hi, instrumentedCounts_ne_none hlen hi]
      · simp [hi, hf.get_arcs_eq_none hlen hi]
  rw [hmissing, Finset.card_disjSum, Finset.card_univ, Fintype.card_fin, Finset.card_compl,
    Fintype.card_fin, List.toFinset_card_of_nodup f.nodup_instrumented]

end Fresh

/-! ### Statistics -/

theorem toNat_getD (o : Option Count) : (o.getD 0).toNat = Counts.amount o := by
  cases o <;> rfl

/-- The normal returns are what the arcs into the exit carry, fake ones apart. -/
theorem returned_eq (f : FunctionGraph) : f.returned =
    ∑ i with (f.arcs.get i).target = f.exit ∧ (f.arcs.get i).attr.fake = false,
      f.counts.value (.inr i) := by
  have hkept : (fun i => decide ((f.arcs.get i).target = f.exit) && !(f.arcs.get i).attr.fake) =
      fun i => decide ((f.arcs.get i).target = f.exit ∧ (f.arcs.get i).attr.fake = false) := by
    funext i
    rw [Bool.decide_and, Bool.decide_eq_false]
  rw [returned, hkept, ← List.sum_eq_foldr]
  simp only [toNat_getD]
  rfl

/-- The executed blocks are those with a count that is not zero, entry and exit apart. -/
theorem executedBlocks_eq (f : FunctionGraph) : f.executedBlocks =
    Finset.card {b | b ≠ f.entry ∧ b ≠ f.exit ∧ 0 < f.counts.value (.inl b)} := by
  have hpos (b : Fin f.size) :
      0 < (f.counts.blocks.get b).getD 0 ↔ 0 < f.counts.value (.inl b) := by
    rw [UInt64.lt_iff_toNat_lt, toNat_getD]
    rfl
  have hkept : (fun b => decide (b ≠ f.entry) && decide (b ≠ f.exit) &&
      decide (0 < (f.counts.blocks.get b).getD 0)) =
      fun b => decide (b ≠ f.entry ∧ b ≠ f.exit ∧ 0 < f.counts.value (.inl b)) := by
    funext b
    simp only [hpos, Bool.decide_and, Bool.and_assoc]
  rw [executedBlocks, hkept, List.countP_eq_length_filter]
  rfl

/-- The statistics that values of all blocks and arcs mean. -/
def statisticsOf (f : FunctionGraph) (φ : Assignment ℕ f.size f.numArcs) : CallStatistics where
  called := φ (.inl f.entry)
  returned := ∑ i with (f.arcs.get i).target = f.exit ∧ (f.arcs.get i).attr.fake = false,
    φ (.inr i)
  executedBlocks := Finset.card {b | b ≠ f.entry ∧ b ≠ f.exit ∧ 0 < φ (.inl b)}

theorem callStatistics_eq (f : FunctionGraph) :
    f.callStatistics = f.statisticsOf f.counts.value := by
  rw [callStatistics, toNat_getD, returned_eq, executedBlocks_eq]
  rfl

theorem withCounts_eq (f : FunctionGraph) (c : Counts f.size f.numArcs) :
    f.withCounts c =
      { f with merged := true, counts := c, statistics := some (f.statisticsOf c.value) } := by
  rw [withCounts, callStatistics_eq]
  rfl

end FunctionGraph

end CoverageFlow
