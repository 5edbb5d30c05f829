import CoverageFlow.Proofs.Flow.Exactness
import CoverageFlow.Proofs.Flow.Walk
import CoverageFlow.Proofs.Graph.Merge

/-!
# Executions of a function

An execution of a function is a walk from its entry to its exit. While a program runs, the
instrumented arcs of each of its functions count how often they are traversed, in all executions
together. What merging makes of these counts, if it does not leave any of them open, is the number
of visits of every block and of traversals of every arc.

The last arc of an execution tells how it ended: with a normal return, unless the arc is fake.

## Main definitions

* `FunctionGraph.Execution`: a walk from the entry to the exit.
* `FunctionGraph.Execution.visits`, `FunctionGraph.Execution.traversals`: how often it visits a
  block and traverses an arc.
* `FunctionGraph.Execution.total`: the visits and traversals of several executions.

## Main results

* `FunctionGraph.Fresh.conserves_total`: executions conserve flow.
* `FunctionGraph.merge_executions`: recorded executions are recovered.
-/

namespace CoverageFlow

namespace FunctionGraph

variable {f : FunctionGraph}

theorem entry_ne_exit (f : FunctionGraph) : f.entry ≠ f.exit := by
  refine Fin.ne_of_val_ne fun h => ?_
  have := f.two_le
  change 0 = f.size - 1 at h
  omega

/-- A walk from the entry to the exit. -/
structure Execution (f : FunctionGraph) where
  /-- The arcs in the order in which they are traversed. -/
  arcs : List (Fin f.numArcs)
  isWalk : f.network.IsWalk f.entry arcs f.exit

namespace Execution

/-- The blocks in the order in which they are visited. -/
def blocks (w : f.Execution) : List (Fin f.size) := f.network.blocksAlong f.entry w.arcs

/-- How often a block is visited. -/
def visits (w : f.Execution) (b : Fin f.size) : ℕ := w.blocks.count b

/-- How often an arc is traversed. -/
def traversals (w : f.Execution) (i : Fin f.numArcs) : ℕ := w.arcs.count i

/-- Whether the function returns normally in the end, by an arc that is not fake. -/
def returns (w : f.Execution) : Bool := w.arcs.getLast?.any fun i => !(f.arcs.get i).attr.fake

/-- The visits and traversals of one execution. -/
def frequency (w : f.Execution) : Assignment ℕ f.size f.numArcs :=
  f.network.frequency f.entry w.arcs

/-- The visits and traversals of several executions together. -/
def total (W : Multiset f.Execution) : Assignment ℕ f.size f.numArcs :=
  Sum.elim (fun b => (W.map (·.visits b)).sum) fun i => (W.map (·.traversals i)).sum

theorem total_zero : total (0 : Multiset f.Execution) = 0 := by
  ext x
  rcases x with b | i <;> rfl

theorem total_cons (w : f.Execution) (W : Multiset f.Execution) :
    total (w ::ₘ W) = w.frequency + total W := by
  ext x
  rcases x with b | i
  · simp only [total, Sum.elim_inl, Multiset.map_cons, Multiset.sum_cons, Pi.add_apply]
    rfl
  · simp only [total, Sum.elim_inr, Multiset.map_cons, Multiset.sum_cons, Pi.add_apply]
    rfl

end Execution

/-! ### Executions conserve flow -/

namespace Fresh

variable (hf : f.Fresh)

include hf

/-- An execution enters and leaves every block as often as it visits it. Only the entry is not
entered and the exit is not left, but there are no arcs that could do so. -/
theorem conserves_frequency (w : f.Execution) : w.frequency.Conserves f.network := by
  rintro (_ | _) b harcs
  · exact w.isWalk.balancedAt_outgoing (hf.ne_exit harcs)
  · exact Network.balancedAt_incoming_frequency (hf.ne_entry harcs)

/-- Executions conserve flow. -/
theorem conserves_total (W : Multiset f.Execution) :
    (Execution.total W).Conserves f.network := by
  induction W using Multiset.induction_on with
  | empty =>
    rw [Execution.total_zero]
    exact Assignment.Conserves.zero f.network
  | cons w W ih =>
    rw [Execution.total_cons]
    exact (hf.conserves_frequency w).add ih

/-! ### Statistics of executions -/

/-- Every execution visits the entry once. -/
theorem visits_entry (w : f.Execution) : w.visits f.entry = 1 := by
  have hnever : f.entry ∉ w.arcs.map fun i => (f.network.get i).target := fun hmem => by
    obtain ⟨i, -, hi⟩ := List.mem_map.1 hmem
    rw [get_network] at hi
    exact hf.target_ne_entry i hi
  rw [Execution.visits, Execution.blocks, Network.blocksAlong, List.count_cons_self,
    List.count_eq_zero.2 hnever]

/-- The executions are counted at the entry. -/
theorem total_entry (W : Multiset f.Execution) :
    Execution.total W (.inl f.entry) = W.card := by
  change (W.map (·.visits f.entry)).sum = W.card
  simp only [hf.visits_entry, Multiset.map_const', Multiset.sum_replicate, smul_eq_mul, mul_one]

/-- An execution enters the exit once, by its last arc. -/
theorem sum_traversals_exit (w : f.Execution) :
    ∑ i with (f.arcs.get i).target = f.exit ∧ (f.arcs.get i).attr.fake = false, w.traversals i =
      if w.returns then 1 else 0 := by
  rw [Execution.returns, ← w.isWalk.countP_eq f.entry_ne_exit hf.side_exit]
  refine (Network.sum_count _ w.arcs).trans (List.countP_congr fun i _ => ?_)
  rw [get_network]
  simp

/-- The executions that return normally are counted at the arcs into the exit that are not
fake. -/
theorem sum_total_exit (W : Multiset f.Execution) :
    ∑ i with (f.arcs.get i).target = f.exit ∧ (f.arcs.get i).attr.fake = false,
      Execution.total W (.inr i) = W.countP (·.returns) := by
  induction W using Multiset.induction_on with
  | empty =>
    rw [Execution.total_zero, Multiset.countP_zero]
    exact Finset.sum_eq_zero fun _ _ => rfl
  | cons w W ih =>
    have hsplit (i : Fin f.numArcs) : Execution.total (w ::ₘ W) (.inr i) =
        w.traversals i + Execution.total W (.inr i) :=
      congrFun (Execution.total_cons w W) (.inr i)
    rw [Finset.sum_congr rfl fun i _ => hsplit i, Finset.sum_add_distrib,
      hf.sum_traversals_exit, ih, Multiset.countP_cons, add_comm]

/-- The statistics of some executions. -/
theorem statisticsOf_total (W : Multiset f.Execution) : f.statisticsOf (Execution.total W) =
    { called := W.card
      returned := W.countP (·.returns)
      executedBlocks := Finset.card
        {b | b ≠ f.entry ∧ b ≠ f.exit ∧ 0 < (W.map (·.visits b)).sum} } := by
  rw [statisticsOf, hf.total_entry, hf.sum_total_exit]
  rfl

end Fresh

/-! ### Recorded executions -/

/-- If each instrumented arc has the count of its traversals in some executions, merging meets no
inconsistency: it leaves counts open, or it finds how often every block was visited and every arc
traversed, how many executions there were, how many of them returned normally, and how many blocks
were visited. -/
theorem merge_executions {record : FunctionRecord Symbol} (hf : ofRecord record = .ok f)
    (W : Multiset f.Execution) (hmax : ∀ b, (W.map (·.visits b)).sum ≤ Count.max.toNat)
    (data : FunctionData) (hchecksum : data.checksum = f.checksum)
    (hcounts : data.counts.map UInt64.toNat =
      f.instrumented.map fun i => (W.map (·.traversals i)).sum) :
    (∀ e f', f.merge data = .error e f' →
      ∃ remaining, e = ⟨.unsolvable f.name remaining, [.function f.name]⟩) ∧
    ∀ f', f.merge data = .ok () f' → ∃ c : Counts f.size f.numArcs,
      (∀ b, (c.blocks.get b).map UInt64.toNat = some (W.map (·.visits b)).sum) ∧
      (∀ i, (c.arcs.get i).map UInt64.toNat = some (W.map (·.traversals i)).sum) ∧
      f' = { f with
        merged := true
        counts := c
        statistics := some {
          called := W.card
          returned := W.countP (·.returns)
          executedBlocks := Finset.card
            {b | b ≠ f.entry ∧ b ≠ f.exit ∧ 0 < (W.map (·.visits b)).sum} } } := by
  have hfresh := fresh_of_ofRecord hf
  have hlength : data.counts.length = f.instrumented.length := by
    simpa using congrArg List.length hcounts
  have htakes : f.Takes data := ⟨hchecksum, hlength, hfresh.merged⟩
  have hφ := hfresh.conserves_total W
  have hwritten : (Execution.total W).Extends (f.instrumentedCounts data.counts) :=
    (hfresh.extends_iff hlength).2 hcounts.symm
  refine ⟨fun e f' h => ?_, fun f' h => ?_⟩
  · obtain ⟨hrefused, -⟩ | ⟨-, o, c, hend, rfl, -⟩ := merge_eq_error h
    · exact absurd htakes hrefused
    · cases o with
      | undetermined remaining => exact ⟨remaining, rfl⟩
      | inconsistent b =>
        have hle (x : Element f.size f.numArcs) : Execution.total W x ≤ Count.max.toNat := by
          rcases x with b | i
          · exact hmax b
          · exact (hφ.arc_le i).trans (hmax _)
        exact absurd hend (Network.complete_ne_inconsistent hle hwritten hφ b c)
  · obtain ⟨-, c, hend, rfl⟩ := merge_eq_ok_iff.1 h
    have hmissing := (Network.complete_eq_ok hend).2
    have hextends := Network.extends_of_complete_eq_ok hwritten hφ hend
    have hc := hextends.of_eq hmissing
    refine ⟨c, fun b => hc (.inl b), fun i => hc (.inr i), ?_⟩
    rw [withCounts_eq, hextends.value_eq hmissing, hfresh.statisticsOf_total]

/-! ### A block with three ways out -/

/-- A block that may return to itself, go on to another block, or end the call. -/
def forkRecord : FunctionRecord Symbol where
  ident := ⟨1⟩
  checksum := 0
  name := "f"
  source := ⟨0⟩
  line := 1
  blocks := [0, 0, 0, 0]
  arcs := [⟨⟨0⟩, [⟨⟨1⟩, 1⟩]⟩, ⟨⟨1⟩, [⟨⟨1⟩, 0⟩, ⟨⟨2⟩, 1⟩, ⟨⟨3⟩, 2⟩]⟩, ⟨⟨2⟩, [⟨⟨3⟩, 0⟩]⟩]
  lines := []

/-- The graph of `forkRecord`. -/
abbrev fork : FunctionGraph where
  ident := ⟨1⟩
  checksum := 0
  name := "f"
  source := ⟨0⟩
  line := 1
  size := 4
  numArcs := 5
  two_le := by decide
  blocks := #v[
    { flags := 0, attr := {}, lines := ∅ },
    { flags := 0, attr := { callSite := true }, lines := ∅ },
    { flags := 0, attr := {}, lines := ∅ },
    { flags := 0, attr := {}, lines := ∅ }]
  arcs := #v[
    { source := 0, target := 1, attr := { ArcAttributes.ofFlags 1 with unconditional := true } },
    { source := 1, target := 1, attr := .ofFlags 0 },
    { source := 1, target := 2, attr := .ofFlags 1 },
    { source := 1, target := 3, attr := { ArcAttributes.ofFlags 2 with callNonReturn := true } },
    { source := 2, target := 3, attr := { ArcAttributes.ofFlags 0 with unconditional := true } }]
  counts := .unknown 4 5
  merged := false
  statistics := none

theorem ofRecord_forkRecord : ofRecord forkRecord = .ok fork := by cbv

theorem network_fork : fork.network = #v[⟨0, 1⟩, ⟨1, 1⟩, ⟨1, 2⟩, ⟨1, 3⟩, ⟨2, 3⟩] := by cbv

/-- An execution of `fork` that repeats its first block and returns, and one that ends there. -/
def forkExecutions : Multiset fork.Execution :=
  {⟨[0, 1, 1, 2, 4], network_fork ▸ (by decide)⟩, ⟨[0, 3], network_fork ▸ (by decide)⟩}

theorem sum_visits_forkExecutions (b : Fin 4) :
    (forkExecutions.map (·.visits b)).sum = ![2, 4, 1, 2] b := by
  simp only [forkExecutions, Execution.visits, Execution.blocks, network_fork]
  revert b
  decide

theorem sum_traversals_forkExecutions (i : Fin 5) :
    (forkExecutions.map (·.traversals i)).sum = ![2, 2, 1, 1, 1] i := by
  revert i
  decide

/-- Of two executions that only three arcs recorded, one is found to have returned. -/
theorem merge_executions_fork : ∃ f', fork.merge ⟨⟨1⟩, 0, [2, 1, 1]⟩ = .ok () f' ∧
    f'.statistics = some { called := 2, returned := 1, executedBlocks := 2 } := by
  have hmerge : fork.merge ⟨⟨1⟩, 0, [2, 1, 1]⟩ = .ok () (fork.withCounts
      ⟨#v[some 2, some 4, some 1, some 2], #v[some 2, some 2, some 1, some 1, some 1]⟩) :=
    merge_eq_ok_iff.2 ⟨⟨rfl, rfl, rfl⟩, _, by cbv, rfl⟩
  have hmax (b : Fin 4) : (forkExecutions.map (·.visits b)).sum ≤ Count.max.toNat := by
    rw [sum_visits_forkExecutions]
    revert b
    decide
  have hcounts : [(2 : Count), 1, 1].map UInt64.toNat =
      fork.instrumented.map fun i => (forkExecutions.map (·.traversals i)).sum := by
    simp only [sum_traversals_forkExecutions]
    rfl
  refine ⟨_, hmerge, ?_⟩
  obtain ⟨c, -, -, hc⟩ := (merge_executions ofRecord_forkRecord forkExecutions hmax
    ⟨⟨1⟩, 0, [2, 1, 1]⟩ rfl hcounts).2 _ hmerge
  rw [hc]
  simp only [sum_visits_forkExecutions]
  rfl

end FunctionGraph

end CoverageFlow
