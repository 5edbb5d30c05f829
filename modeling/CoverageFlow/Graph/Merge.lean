import CoverageFlow.Error
import CoverageFlow.Flow.Solver
import CoverageFlow.Graph.Function
import CoverageFlow.Record.Data

/-!
# Merging counts into a function graph

A data file holds one count for each instrumented arc of a function. They are written into the
graph once, then the other counts are completed. Counts that do not belong to the function are
refused before anything is written.

## Main definitions

* `FunctionGraph.merge`: writes and completes the counts.
* `FunctionGraph.callStatistics`: the statistics of a completed graph.
-/

namespace CoverageFlow

/-- The error that an obstacle in the graph of a function means. -/
def Obstacle.error {n : Nat} (function : String) : Obstacle n → Error
  | .inconsistent block => .inconsistentFlow function block
  | .undetermined remaining => .unsolvable function remaining

namespace FunctionGraph

/-- The counts after those of the instrumented arcs were written. -/
def instrumentedCounts (f : FunctionGraph) (counts : List Count) : Counts f.size f.numArcs :=
  (f.instrumented.zip counts).foldl (fun c (i, count) => c.setArc i count) f.counts

/-- The number of normal returns: what the arcs into the exit carry, fake ones apart. -/
def returned (f : FunctionGraph) : Nat :=
  let arcs := (List.finRange f.numArcs).filter fun i =>
    (f.arcs.get i).target = f.exit && !(f.arcs.get i).attr.fake
  (arcs.map fun i => ((f.counts.arcs.get i).getD 0).toNat).foldr (· + ·) 0

/-- The number of executed blocks, entry and exit apart. -/
def executedBlocks (f : FunctionGraph) : Nat :=
  (List.finRange f.size).countP fun b =>
    b ≠ f.entry && b ≠ f.exit && 0 < (f.counts.blocks.get b).getD 0

/-- The statistics of a graph whose counts are complete. -/
def callStatistics (f : FunctionGraph) : CallStatistics where
  called := ((f.counts.blocks.get f.entry).getD 0).toNat
  returned := f.returned
  executedBlocks := f.executedBlocks

/-- Writes the counts of the instrumented arcs, completes the others and sums them up. What was
found before a failure stays. -/
def merge (data : FunctionData) : EStateM Failure FunctionGraph Unit := fun f =>
  if data.checksum ≠ f.checksum then
    .error (.bare (.checksumMismatch f.name f.checksum data.checksum)) f
  else if data.counts.length ≠ f.instrumented.length then
    .error (.bare (.countsMismatch f.name f.instrumented.length data.counts.length)) f
  else if f.merged then
    .error (.bare (.malformedGraph f.name .mergedTwice)) f
  else
    match f.network.complete (f.instrumentedCounts data.counts) with
    | .error e counts =>
      .error ⟨e.error f.name, [.function f.name]⟩ { f with merged := true, counts }
    | .ok () counts =>
      let f := { f with merged := true, counts }
      .ok () { f with statistics := some f.callStatistics }

end FunctionGraph

end CoverageFlow
