import CoverageFlow.Coverage.Basic

/-!
# Reports

The coverage of a unit, told by source file: which functions a file declares, and how often each
line was executed. Both are collected by the names of files. For a unit that was read it is the same
to collect them by symbols and to name the files at the end (`Coverage.functionsBySource_eq`,
`Coverage.countsBySource_eq`).

## Main definitions

* `Coverage.functionsByFile`: the functions that each file declares.
* `Coverage.countsByLine`: the count of each line of each file.
* `Coverage.reportPath`: the name of the report about a file.
-/

namespace CoverageFlow.Coverage

/-- The name of a source file. -/
def fileName (c : Coverage) (file : Symbol) : String :=
  c.symbols.name file

/-- Adds a function to those of the file that declares it. -/
def addToSource (c : Coverage) (groups : Std.ExtTreeMap String (List FunctionGraph))
    (f : FunctionGraph) : Std.ExtTreeMap String (List FunctionGraph) :=
  let file := c.fileName f.source
  groups.insert file (groups.getD file [] ++ [f])

/-- The functions that each file declares, by line and then by name; functions equal in both come
in the order of their identifiers. -/
def functionsByFile (c : Coverage) : Std.ExtTreeMap String (List FunctionGraph) :=
  (c.functionList.foldl c.addToSource ∅).map fun _ functions =>
    functions.mergeSort fun f g => (f.compareByLine g).isLE

/-- Adds a count to a line; sums stop at the largest count. -/
def addToLine (c : Coverage) (count : Count)
    (lines : Std.ExtTreeMap String (Std.ExtTreeMap UInt32 Count)) (spot : Symbol × UInt32) :
    Std.ExtTreeMap String (Std.ExtTreeMap UInt32 Count) :=
  let file := c.fileName spot.1
  let counts := lines.getD file ∅
  lines.insert file (counts.insert spot.2 (Count.addClamped (counts.getD spot.2 0) count))

/-- The blocks of a function with their counts; a count that is not known is zero. -/
def countedBlocks (f : FunctionGraph) : List (Block × Count) :=
  (List.finRange f.size).map fun b => (f.blocks.get b, (f.counts.blocks.get b).getD 0)

/-- The count of each line of each file: the sum of the counts of all blocks that cover it. -/
def countsByLine (c : Coverage) : Std.ExtTreeMap String (Std.ExtTreeMap UInt32 Count) :=
  (c.functionList.flatMap countedBlocks).foldl
    (fun lines (block, count) => block.lines.pairs.foldl (c.addToLine count) lines) ∅

/-- The name of the report about a source file. -/
def reportPath (c : Coverage) (file : Symbol) : String :=
  c.paths.reportPath (c.fileName file)

end CoverageFlow.Coverage
