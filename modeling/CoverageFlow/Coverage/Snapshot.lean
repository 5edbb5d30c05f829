import CoverageFlow.Coverage.Basic
import CoverageFlow.Graph.Snapshot

/-!
# Snapshots of coverage

## Main definitions

* `Coverage.json`: everything about a unit as a JSON value.
-/

namespace CoverageFlow

/-- Everything about a unit as a JSON value. -/
def Coverage.json (c : Coverage) : Json :=
  .obj [
    ("note_path", .str c.paths.notesPath.text),
    ("data_path", .str c.paths.dataPath.text),
    ("version", .str c.version.text),
    ("stamp", .nat c.stamp.toNat),
    ("data_status", .str c.status.text),
    ("runs", .nat c.runs.toNat),
    ("programs", .nat c.programs),
    ("functions", .list (FunctionGraph.json c.symbols) c.functionList)]

end CoverageFlow
