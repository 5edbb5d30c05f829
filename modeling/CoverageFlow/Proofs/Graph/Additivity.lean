import CoverageFlow.Proofs.Flow.Additivity
import CoverageFlow.Proofs.Graph.Execution

/-!
# Coverage is additive

If the counts of two runs of a program can both be merged into a function, so can their sums, and
what merging finds for the sums is what it finds for the two runs together. The counts need not
conserve flow for this. Only the range of counts sets a limit: if some side of a block carries more
than any count can be in both runs together, the sums are rejected as inconsistent.

## Main results

* `FunctionGraph.Fresh.addUp_instrumentedCounts`: sums are written as the sums of what is written.
* `FunctionGraph.merge_additive`: merged sums are sums of merged counts.
-/

namespace CoverageFlow

namespace FunctionGraph

variable {f f₁ f₂ : FunctionGraph} {data₁ data₂ : FunctionData}

/-- The count that is read back for an arc is the one at its place among the instrumented arcs. -/
theorem get_instrumentedCounts {counts : List Count}
    (hlen : counts.length = f.instrumented.length) {k : ℕ} (hk : k < f.instrumented.length)
    (hk' : k < counts.length) :
    (f.instrumentedCounts counts).arcs.get f.instrumented[k] = some counts[k] := by
  have hread := map_get_instrumentedCounts hlen
  have hk₁ : k < (f.instrumented.map (f.instrumentedCounts counts).arcs.get).length := by
    rwa [List.length_map]
  have := List.getElem_of_eq hread hk₁
  rwa [List.getElem_map, List.getElem_map] at this

/-- Sums of the counts of two runs are written as the sums of the written counts. -/
theorem Fresh.addUp_instrumentedCounts (hf : f.Fresh) {counts counts₁ counts₂ : List Count}
    (hlen₁ : counts₁.length = f.instrumented.length)
    (hlen₂ : counts₂.length = f.instrumented.length)
    (hcounts : counts.map UInt64.toNat =
      List.zipWith (fun a₁ a₂ => a₁.toNat + a₂.toNat) counts₁ counts₂) :
    (f.instrumentedCounts counts₁).AddUp (f.instrumentedCounts counts₂)
      (f.instrumentedCounts counts) := by
  have hlen : counts.length = f.instrumented.length := by
    have := congrArg List.length hcounts
    rw [List.length_map, List.length_zipWith] at this
    omega
  rintro (b | i)
  · simp only [Counts.of_inl, hf.get_blocks b]
    exact .missing
  by_cases hi : i ∈ f.instrumented
  · obtain ⟨k, hk, rfl⟩ := List.getElem_of_mem hi
    simp only [Counts.of_inr, get_instrumentedCounts hlen hk (hlen ▸ hk),
      get_instrumentedCounts hlen₁ hk (hlen₁ ▸ hk), get_instrumentedCounts hlen₂ hk (hlen₂ ▸ hk)]
    have hk' : k < (counts.map UInt64.toNat).length := by
      rw [List.length_map]
      exact hlen ▸ hk
    have hsum := List.getElem_of_eq hcounts hk'
    rw [List.getElem_map, List.getElem_zipWith] at hsum
    exact .known hsum
  · simp only [Counts.of_inr, hf.get_arcs_eq_none hlen hi, hf.get_arcs_eq_none hlen₁ hi,
      hf.get_arcs_eq_none hlen₂ hi]
    exact .missing

theorem called_statisticsOf_add (f : FunctionGraph) (φ ψ : Assignment ℕ f.size f.numArcs) :
    (f.statisticsOf (φ + ψ)).called = (f.statisticsOf φ).called + (f.statisticsOf ψ).called := rfl

theorem returned_statisticsOf_add (f : FunctionGraph) (φ ψ : Assignment ℕ f.size f.numArcs) :
    (f.statisticsOf (φ + ψ)).returned =
      (f.statisticsOf φ).returned + (f.statisticsOf ψ).returned := by
  simp only [statisticsOf, Pi.add_apply, Finset.sum_add_distrib]

/-- If the counts of two runs can both be merged, their sums can be merged exactly if no side
carries more in both runs together than a count can be. Then all counts are the sums of those of
the two runs, and so are the numbers of calls and of normal returns. Otherwise the sums are
inconsistent. -/
theorem merge_additive {record : FunctionRecord Symbol} (hf : ofRecord record = .ok f)
    (h₁ : f.merge data₁ = .ok () f₁) (h₂ : f.merge data₂ = .ok () f₂) (data : FunctionData)
    (hchecksum : data.checksum = f.checksum)
    (hcounts : data.counts.map UInt64.toNat =
      List.zipWith (fun a₁ a₂ => a₁.toNat + a₂.toNat) data₁.counts data₂.counts) :
    ∃ (c₁ c₂ : Counts f.size f.numArcs) (s₁ s₂ : CallStatistics),
      f₁ = { f with merged := true, counts := c₁, statistics := some s₁ } ∧
      f₂ = { f with merged := true, counts := c₂, statistics := some s₂ } ∧
      ((∀ d b, c₁.flow f.network d b + c₂.flow f.network d b ≤ Count.max.toNat) →
        ∃ (c : Counts f.size f.numArcs) (s : CallStatistics),
          f.merge data = .ok () { f with merged := true, counts := c, statistics := some s } ∧
          c.missing = ∅ ∧ c₁.AddUp c₂ c ∧ s.called = s₁.called + s₂.called ∧
          s.returned = s₁.returned + s₂.returned) ∧
      ((¬ ∀ d b, c₁.flow f.network d b + c₂.flow f.network d b ≤ Count.max.toNat) →
        ∃ b f', f.merge data = .error ⟨.inconsistentFlow f.name b, [.function f.name]⟩ f') := by
  have hfresh := fresh_of_ofRecord hf
  obtain ⟨htakes₁, c₁, hend₁, rfl⟩ := merge_eq_ok_iff.1 h₁
  obtain ⟨htakes₂, c₂, hend₂, rfl⟩ := merge_eq_ok_iff.1 h₂
  have hwritten := hfresh.addUp_instrumentedCounts htakes₁.length htakes₂.length hcounts
  have htakes : f.Takes data := by
    refine ⟨hchecksum, ?_, hfresh.merged⟩
    have := congrArg List.length hcounts
    rw [List.length_map, List.length_zipWith, htakes₁.length, htakes₂.length, Nat.min_self] at this
    exact this
  have hsum := Network.complete_addUp hwritten hend₁ hend₂
  refine ⟨c₁, c₂, _, _, f.withCounts_eq c₁, f.withCounts_eq c₂, ?_⟩
  rw [← Counts.not_overflow_iff, not_not]
  rcases hend : f.network.complete (f.instrumentedCounts data.counts) with ⟨⟨⟩, c⟩ | ⟨o, c⟩
  · rw [hend] at hsum
    obtain ⟨hadd, hrange⟩ := hsum
    refine ⟨fun _ => ⟨c, f.statisticsOf c.value, ?_, ?_, hadd, ?_, ?_⟩, fun h => absurd h hrange⟩
    · rw [merge_eq_ok_iff.2 ⟨htakes, c, hend, rfl⟩, withCounts_eq]
    · exact (Network.complete_eq_ok hend).2
    · rw [hadd.value_eq, called_statisticsOf_add]
    · rw [hadd.value_eq, returned_statisticsOf_add]
  · rw [hend] at hsum
    cases o with
    | inconsistent b =>
      exact ⟨fun hrange => absurd hsum hrange, fun _ => ⟨b, _, htakes.merge_eq_error hend⟩⟩
    | undetermined remaining => exact hsum.elim

/-- What two runs of `fork` counted is merged together, unless a block is left too often. -/
theorem merge_additive_fork :
    (∃ f', fork.merge ⟨⟨1⟩, 0, [3, 1, 4]⟩ = .ok () f' ∧
      f'.statistics.map (fun s => (s.called, s.returned)) = some (5, 4)) ∧
    ∃ b f', fork.merge ⟨⟨1⟩, 0, [Count.max, 1, 1]⟩ =
      .error ⟨.inconsistentFlow "f" b, [.function "f"]⟩ f' := by
  have hmerge₁ : fork.merge ⟨⟨1⟩, 0, [2, 1, 1]⟩ = .ok () (fork.withCounts
      ⟨#v[some 2, some 4, some 1, some 2], #v[some 2, some 2, some 1, some 1, some 1]⟩) :=
    merge_eq_ok_iff.2 ⟨⟨rfl, rfl, rfl⟩, _, by cbv, rfl⟩
  have hmerge₂ : fork.merge ⟨⟨1⟩, 0, [1, 0, 3]⟩ = .ok () (fork.withCounts
      ⟨#v[some 3, some 4, some 3, some 3], #v[some 3, some 1, some 3, some 0, some 3]⟩) :=
    merge_eq_ok_iff.2 ⟨⟨rfl, rfl, rfl⟩, _, by cbv, rfl⟩
  have hmerge₃ : fork.merge ⟨⟨1⟩, 0, [Count.max, 0, 0]⟩ = .ok () (fork.withCounts
      ⟨#v[some 0, some Count.max, some 0, some 0],
        #v[some 0, some Count.max, some 0, some 0, some 0]⟩) :=
    merge_eq_ok_iff.2 ⟨⟨rfl, rfl, rfl⟩, _, by cbv, rfl⟩
  have hmerge₄ : fork.merge ⟨⟨1⟩, 0, [0, 1, 1]⟩ = .ok () (fork.withCounts
      ⟨#v[some 2, some 2, some 1, some 2], #v[some 2, some 0, some 1, some 1, some 1]⟩) :=
    merge_eq_ok_iff.2 ⟨⟨rfl, rfl, rfl⟩, _, by cbv, rfl⟩
  constructor
  · obtain ⟨c₁, c₂, s₁, s₂, hf₁, hf₂, hsum, -⟩ := merge_additive ofRecord_forkRecord hmerge₁ hmerge₂
      ⟨⟨1⟩, 0, [3, 1, 4]⟩ rfl rfl
    cases hf₁
    cases hf₂
    obtain ⟨c, s, hmerge, -, -, hcalled, hreturned⟩ := hsum (by rw [network_fork]; decide)
    refine ⟨_, hmerge, ?_⟩
    simp only [Option.map_some, hcalled, hreturned]
    rfl
  · obtain ⟨c₁, c₂, s₁, s₂, hf₁, hf₂, -, hoverflow⟩ :=
      merge_additive ofRecord_forkRecord hmerge₃ hmerge₄ ⟨⟨1⟩, 0, [Count.max, 1, 1]⟩ rfl rfl
    cases hf₁
    cases hf₂
    exact hoverflow (by rw [network_fork]; decide)

end FunctionGraph

end CoverageFlow
