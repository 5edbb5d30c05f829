import CoverageFlow.Proofs.Flow.Backing
import CoverageFlow.Proofs.Flow.Exactness
import CoverageFlow.Proofs.Graph.Merge

/-!
# Conservation of flow in merged functions

The counts of a function conserve flow if the count of every block is the sum of the counts on
each of its sides. Merging does not promise this. A block takes its count from one side, and if
the arcs on its other side are known as well, the two sums are never compared. So counts may be
accepted that belong to no execution of the function.

What does hold is that accepted counts conserve flow exactly if they can be counts of the function
at all. Where no equation is spare, because there are no more sides with arcs than counts to be
completed, all accepted counts conserve flow.

## Main definitions

* `FunctionGraph.ConservesFlow`: the counts of a function conserve flow.
* `FunctionGraph.Admits`: the counts of instrumented arcs are part of counts that conserve flow.

## Main results

* `FunctionGraph.exists_merge_not_conservesFlow`: merged counts need not conserve flow.
* `FunctionGraph.merge_conservesFlow_iff_admits`: when they do.
-/

namespace CoverageFlow

namespace FunctionGraph

variable {f f' : FunctionGraph} {data : FunctionData}

/-- The count of every block is the sum of the counts of the arcs that enter it and of those that
leave it, unless there are no such arcs. Nothing enters the entry, and nothing leaves the exit. -/
structure ConservesFlow (f : FunctionGraph) : Prop where
  incoming : ∀ b ≠ f.entry, (f.network.side .incoming b).Nonempty →
    f.counts.Balanced f.network .incoming b
  outgoing : ∀ b ≠ f.exit, (f.network.side .outgoing b).Nonempty →
    f.counts.Balanced f.network .outgoing b

/-- The counts are those of the instrumented arcs in some assignment of counts to the whole
function that conserves flow. -/
def Admits (f : FunctionGraph) (counts : List Count) : Prop :=
  ∃ φ : Assignment ℕ f.size f.numArcs, (∀ x, φ x ≤ Count.max.toNat) ∧ φ.Conserves f.network ∧
    f.instrumented.map (fun i => φ (.inr i)) = counts.map UInt64.toNat

/-! ### Counts that conserve flow -/

/-- In a fresh graph the entry and the exit need not be excepted. -/
theorem Fresh.conservesFlow_withCounts_iff (hf : f.Fresh) {c : Counts f.size f.numArcs} :
    (f.withCounts c).ConservesFlow ↔
      ∀ d b, (f.network.side d b).Nonempty → c.Balanced f.network d b := by
  constructor
  · rintro h (_ | _) b harcs
    · exact h.outgoing b (hf.ne_exit harcs) harcs
    · exact h.incoming b (hf.ne_entry harcs) harcs
  · exact fun h => ⟨fun b _ harcs => h .incoming b harcs, fun b _ harcs => h .outgoing b harcs⟩

/-- Completed counts conserve flow if the written ones are part of counts that do. -/
theorem Fresh.balanced_of_admits (hf : f.Fresh) {counts : List Count}
    (hlen : counts.length = f.instrumented.length) {c : Counts f.size f.numArcs}
    (hend : f.network.complete (f.instrumentedCounts counts) = .ok () c)
    (hadmits : f.Admits counts) {d : Direction} {b : Fin f.size}
    (harcs : (f.network.side d b).Nonempty) : c.Balanced f.network d b := by
  obtain ⟨φ, -, hφ, hcounts⟩ := hadmits
  have hwritten := (hf.extends_iff hlen).2 hcounts
  have hmissing := (Network.complete_eq_ok hend).2
  refine ⟨fun x _ => Counts.of_ne_none hmissing x, ?_⟩
  rw [(Network.extends_of_complete_eq_ok hwritten hφ hend).value_eq hmissing]
  exact hφ d b harcs

/-- Completed counts that conserve flow show that the written ones are part of such counts. -/
theorem Fresh.admits_of_balanced (hf : f.Fresh) {counts : List Count}
    (hlen : counts.length = f.instrumented.length) {c : Counts f.size f.numArcs}
    (hc : c.Extends (f.instrumentedCounts counts))
    (hbalanced : ∀ d b, (f.network.side d b).Nonempty → c.Balanced f.network d b) :
    f.Admits counts := by
  refine ⟨c.value, fun x => ?_, fun d b harcs => (hbalanced d b harcs).balance, ?_⟩
  · exact c.value_le_max x
  · exact (hf.extends_iff hlen).1 fun x count hcount => Counts.value_eq (hc x count hcount)

/-! ### A chain with both of its arcs instrumented -/

/-- A block between entry and exit, with an instrumented arc on each side. -/
def chainRecord : FunctionRecord Symbol where
  ident := ⟨1⟩
  checksum := 0
  name := "f"
  source := ⟨0⟩
  line := 1
  blocks := [0, 0, 0]
  arcs := [⟨⟨0⟩, [⟨⟨1⟩, 0⟩]⟩, ⟨⟨1⟩, [⟨⟨2⟩, 0⟩]⟩]
  lines := []

/-- The graph of `chainRecord`. -/
abbrev chain : FunctionGraph where
  ident := ⟨1⟩
  checksum := 0
  name := "f"
  source := ⟨0⟩
  line := 1
  size := 3
  numArcs := 2
  two_le := by decide
  blocks := .replicate 3 { flags := 0, attr := {}, lines := ∅ }
  arcs := #v[
    { source := 0, target := 1, attr := { ArcAttributes.ofFlags 0 with unconditional := true } },
    { source := 1, target := 2, attr := { ArcAttributes.ofFlags 0 with unconditional := true } }]
  counts := .unknown 3 2
  merged := false
  statistics := none

theorem ofRecord_chainRecord : ofRecord chainRecord = .ok chain := by cbv

theorem network_chain : chain.network = #v[⟨0, 1⟩, ⟨1, 2⟩] := by cbv

/-- Merged counts need not conserve flow: a block can be left more often than it was entered. -/
theorem exists_merge_not_conservesFlow : ∃ (record : FunctionRecord Symbol) (data : FunctionData)
    (f f' : FunctionGraph), ofRecord record = .ok f ∧ f.merge data = .ok () f' ∧
      ¬ f'.ConservesFlow := by
  have hmerge : chain.merge ⟨⟨1⟩, 0, [3, 5]⟩ =
      .ok () (chain.withCounts ⟨#v[some 3, some 5, some 5], #v[some 3, some 5]⟩) :=
    merge_eq_ok_iff.2 ⟨⟨rfl, rfl, rfl⟩, _, by cbv, rfl⟩
  have hentry : (1 : Fin 3) ≠ chain.entry := Fin.ne_of_val_ne Nat.one_ne_zero
  have hentered : ¬ (Counts.value ⟨#v[some 3, some 5, some 5], #v[some 3, some 5]⟩).BalancedAt
      chain.network .incoming (1 : Fin 3) := by
    rw [network_chain]
    decide
  refine ⟨chainRecord, _, chain, _, ofRecord_chainRecord, hmerge, fun h => hentered ?_⟩
  have hside : (0 : Fin 2) ∈ chain.network.side .incoming (1 : Fin 3) := by
    rw [network_chain]
    decide
  exact (h.incoming (1 : Fin 3) hentry ⟨(0 : Fin 2), hside⟩).balance

/-- Accepted counts conserve flow exactly if they are part of counts of the whole function that
do; with no more sides than missing counts, they always conserve flow. Counts that are part of
such counts are never rejected as inconsistent. -/
theorem merge_conservesFlow_iff_admits {record : FunctionRecord Symbol}
    (hf : ofRecord record = .ok f) (data : FunctionData) :
    (∀ f', f.merge data = .ok () f' → (f'.ConservesFlow ↔ f.Admits data.counts) ∧
      (f.network.sides.card ≤ f.size + (f.numArcs - f.instrumented.length) → f'.ConservesFlow)) ∧
    ∀ e f' b, f.merge data = .error e f' → e.error = .inconsistentFlow f.name b →
      ¬ f.Admits data.counts := by
  have hfresh := fresh_of_ofRecord hf
  refine ⟨fun f' h => ?_, fun e f' b h he => ?_⟩
  · obtain ⟨htakes, c, hend, rfl⟩ := merge_eq_ok_iff.1 h
    obtain ⟨hentails, hmissing⟩ := Network.complete_eq_ok hend
    rw [hfresh.conservesFlow_withCounts_iff]
    refine ⟨⟨fun hbalanced => ?_, fun hadmits d b harcs => ?_⟩, fun hcard d b harcs => ?_⟩
    · exact hfresh.admits_of_balanced htakes.length hentails.extends hbalanced
    · exact hfresh.balanced_of_admits htakes.length hend hadmits harcs
    · refine hentails.balanced_of_card_le hmissing ?_ harcs
      rwa [hfresh.card_missing htakes.length]
  · rintro ⟨φ, hmax, hφ, hcounts⟩
    obtain ⟨-, -, rfl | rfl | rfl⟩ | ⟨htakes, o, c, hend, rfl, -⟩ := merge_eq_error h
    · cases he
    · cases he
    · cases he
    · cases o with
      | undetermined remaining => cases he
      | inconsistent b' =>
        have hwritten := (hfresh.extends_iff htakes.length).2 hcounts
        exact Network.complete_ne_inconsistent hmax hwritten hφ b' c hend

/-- The counts of an execution of the chain conserve flow once they are merged. -/
theorem merge_conservesFlow_iff_admits_chain :
    ∃ f', chain.merge ⟨⟨1⟩, 0, [4, 4]⟩ = .ok () f' ∧ f'.ConservesFlow := by
  have hmerge : chain.merge ⟨⟨1⟩, 0, [4, 4]⟩ =
      .ok () (chain.withCounts ⟨#v[some 4, some 4, some 4], #v[some 4, some 4]⟩) :=
    merge_eq_ok_iff.2 ⟨⟨rfl, rfl, rfl⟩, _, by cbv, rfl⟩
  refine ⟨_, hmerge, ?_⟩
  rw [((merge_conservesFlow_iff_admits ofRecord_chainRecord _).1 _ hmerge).1]
  have hφ : Assignment.Conserves (fun _ => 4) chain.network := by
    rw [network_chain]
    decide
  exact ⟨fun _ => 4, fun _ => (by decide : 4 ≤ Count.max.toNat), hφ, rfl⟩

end FunctionGraph

end CoverageFlow
