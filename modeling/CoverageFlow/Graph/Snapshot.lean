import CoverageFlow.Graph.Function
import CoverageFlow.Text.Json

/-!
# Snapshots of function graphs

A snapshot is a JSON value that tells everything about a function: what the notes file announces,
the complexity, the statistics, every block with its lines, and every arc.

## Main definitions

* `LineMap.json`: the lines of each file, keyed by the file's name.
* `FunctionGraph.json`: the snapshot of a function.
-/

namespace CoverageFlow

/-- The lines of each file, files in the order of their symbols. -/
def LineMap.json (symbols : SymbolTable) (lines : LineMap) : Json :=
  .obj <| lines.toList.map fun (file, lines) =>
    (symbols.name file, .list (fun line => .nat line.toNat) lines.toList)

/-- The statistics of a function. -/
def CallStatistics.json (s : CallStatistics) : Json :=
  .obj [("called_count", .nat s.called), ("returned_count", .nat s.returned),
    ("executed_block_count", .nat s.executedBlocks)]

namespace FunctionGraph

/-- A count as JSON, `null` if it is not known. -/
def countJson (count : Option Count) : Json :=
  .option (fun c => .nat c.toNat) count

/-- A block of a function. -/
def blockJson (symbols : SymbolTable) (f : FunctionGraph) (b : Fin f.size) : Json :=
  let block := f.blocks.get b
  .obj [
    ("index", .nat b),
    ("flags", .nat block.flags.toNat),
    ("count", countJson (f.counts.blocks.get b)),
    ("call_site", .bool block.attr.callSite),
    ("call_return", .bool block.attr.callReturn),
    ("nonlocal_return", .bool block.attr.nonlocalReturn),
    ("lines", block.lines.json symbols)]

/-- An arc of a function. -/
def arcJson (f : FunctionGraph) (i : Fin f.numArcs) : Json :=
  let arc := f.arcs.get i
  .obj [
    ("src", .nat arc.source),
    ("dest", .nat arc.target),
    ("count", countJson (f.counts.arcs.get i)),
    ("on_tree", .bool arc.attr.onTree),
    ("fake", .bool arc.attr.fake),
    ("fall_through", .bool arc.attr.fallThrough),
    ("unconditional", .bool arc.attr.unconditional),
    ("call_non_return", .bool arc.attr.callNonReturn),
    ("nonlocal_return", .bool arc.attr.nonlocalReturn)]

/-- The snapshot of a function. -/
def json (symbols : SymbolTable) (f : FunctionGraph) : Json :=
  .obj [
    ("ident", .nat f.ident.val.toNat),
    ("checksum", .nat f.checksum.toNat),
    ("name", .str f.name),
    ("source", .str (symbols.name f.source)),
    ("line", .nat f.line.toNat),
    ("complexity", .num f.complexity),
    ("complexity_with_fake", .num f.fullComplexity),
    ("summary", .option CallStatistics.json f.statistics),
    ("blocks", .list (f.blockJson symbols) (List.finRange f.size)),
    ("arcs", .list f.arcJson f.arcsInOrder)]

end FunctionGraph

end CoverageFlow
