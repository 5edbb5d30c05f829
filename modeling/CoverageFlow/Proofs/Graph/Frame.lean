import CoverageFlow.Proofs.Flow.Exactness
import CoverageFlow.Proofs.Graph.LifeCycle

/-!
# What merging leaves alone

Completing the counts of a network only adds to them, also where it fails halfway, and adds nothing
if it fails before the first round. So a merged graph differs from the graph before in its counts
and its statistics, and the counts of the data file can be read off it again.

## Main definitions

* `Network.completed`: the counts that completing leaves, whether it succeeds or not.

## Main results

* `Network.completed_extends`: known counts stay.
* `FunctionGraph.Takes.afterMerge_frame`: what a merged graph keeps.
* `FunctionGraph.known_counts_stay`: both at once.
-/

namespace CoverageFlow

variable {n m : ℕ}

namespace Network

/-- The counts that completing `c` leaves, whether it succeeds or not. -/
def completed (g : Network n m) (c : Counts n m) : Counts n m :=
  match g.complete c with
  | .ok _ c' => c'
  | .error _ c' => c'

theorem completed_of_ok {g : Network n m} {c c' : Counts n m} (h : g.complete c = .ok () c') :
    g.completed c = c' := by
  rw [completed, h]

theorem completed_of_error {g : Network n m} {c c' : Counts n m} {o : Obstacle n}
    (h : g.complete c = .error o c') : g.completed c = c' := by
  rw [completed, h]

/-- However completing ends, it made deductions only. -/
theorem entails_completed (g : Network n m) (c : Counts n m) : c.Entails g (g.completed c) := by
  rcases hend : g.complete c with ⟨⟨⟩, c'⟩ | ⟨b | remaining, c'⟩
  · rw [completed_of_ok hend]
    exact (complete_eq_ok hend).1
  · rw [completed_of_error hend]
    exact (complete_eq_inconsistent hend).1
  · rw [completed_of_error hend]
    exact (complete_eq_undetermined hend).1

/-- Known counts stay as they are, however completing ends. -/
theorem completed_extends (g : Network n m) (c : Counts n m) : (g.completed c).Extends c :=
  (g.entails_completed c).extends

end Network

namespace FunctionGraph

variable {f : FunctionGraph} {data : FunctionData}

/-- What merging makes of a graph that takes the data: it has other counts, perhaps statistics, and
is the same otherwise. -/
theorem Takes.afterMerge_eq (h : f.Takes data) : ∃ statistics, f.afterMerge data =
    { f with
      counts := f.network.completed (f.instrumentedCounts data.counts)
      merged := true
      statistics } := by
  rcases hend : f.network.complete (f.instrumentedCounts data.counts) with ⟨⟨⟩, c⟩ | ⟨o, c⟩
  · rw [Network.completed_of_ok hend, afterMerge, merge_eq_ok_iff.2 ⟨h, c, hend, rfl⟩]
    exact ⟨_, rfl⟩
  · rw [Network.completed_of_error hend, afterMerge, h.merge_eq_error hend]
    exact ⟨_, rfl⟩

/-- Completing the counts keeps those that were written. -/
theorem map_get_of_extends {counts : List Count} {c : Counts f.size f.numArcs}
    (hlen : counts.length = f.instrumented.length)
    (hc : c.Extends (f.instrumentedCounts counts)) :
    f.instrumented.map c.arcs.get = counts.map some := by
  rw [← map_get_instrumentedCounts hlen]
  refine List.map_congr_left fun i hi => ?_
  obtain ⟨count, hcount⟩ := Option.ne_none_iff_exists'.1 (instrumentedCounts_ne_none hlen hi)
  rw [hcount]
  exact hc (.inr i) count hcount

/-- A merged graph, whether it could be completed or not, has all counts that were known once those
of the data were written, so the data can be read off it; but for its counts and its statistics it
is the graph from before. -/
theorem Takes.afterMerge_frame (h : f.Takes data) : ∃ counts statistics,
    f.afterMerge data = { f with counts, merged := true, statistics } ∧
      counts.Extends (f.instrumentedCounts data.counts) ∧
      f.instrumented.map counts.arcs.get = data.counts.map some := by
  obtain ⟨statistics, hafter⟩ := h.afterMerge_eq
  have hextends := f.network.completed_extends (f.instrumentedCounts data.counts)
  exact ⟨_, statistics, hafter, hextends, map_get_of_extends h.length hextends⟩

/-- Completing counts never changes a known one, and changes nothing at all if it fails before the
first round. Once the counts of a data file were written into a graph, they stay there, and nothing
else of the graph changes. -/
theorem known_counts_stay (g : Network n m) (c : Counts n m) (f : FunctionGraph)
    (data : FunctionData) :
    (g.completed c).Extends c ∧
      (∀ b, Solver.start g c = .error b → g.complete c = .error (.inconsistent b) c) ∧
      (f.Takes data → ∃ counts statistics,
        f.afterMerge data = { f with counts, merged := true, statistics } ∧
          counts.Extends (f.instrumentedCounts data.counts) ∧
          f.instrumented.map counts.arcs.get = data.counts.map some) :=
  ⟨g.completed_extends c, fun _ h => Network.complete_of_start_eq_error h,
    Takes.afterMerge_frame⟩

/-- Two parallel arcs that carry more than any count keep their counts, and so do the arcs of the
chain, though the counts written there do not conserve flow. -/
theorem known_counts_stay_chain :
    let c : Counts 2 2 := ⟨#v[none, none], #v[some Count.max, some 1]⟩
    Network.parallel.complete c = .error (.inconsistent 0) c ∧
      ∃ counts statistics, chain.afterMerge ⟨⟨1⟩, 0, [3, 5]⟩ =
          { chain with counts, merged := true, statistics } ∧
        chain.instrumented.map counts.arcs.get = [some 3, some 5] := by
  intro c
  have htakes : chain.Takes ⟨⟨1⟩, 0, [3, 5]⟩ := ⟨rfl, rfl, rfl⟩
  have hstart : Solver.start Network.parallel c = .error 0 := by cbv
  obtain ⟨-, hparallel, hchain⟩ :=
    known_counts_stay Network.parallel c chain ⟨⟨1⟩, 0, [3, 5]⟩
  obtain ⟨counts, statistics, hafter, -, hread⟩ := hchain htakes
  exact ⟨hparallel 0 hstart, counts, statistics, hafter, hread⟩

end FunctionGraph

end CoverageFlow
