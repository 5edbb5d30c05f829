import CoverageFlow.Record.Notes
import Std.Data.ExtTreeMap
import Std.Data.ExtTreeSet

/-!
# Source lines of a block

A block covers lines of one or more source files.

## Main definitions

* `LineMap`: the lines of each file.
* `LineMap.insert`, `LineMap.insertMany`: adds lines of one file.
* `LineMap.record`: adds the lines that a record states.
* `LineMap.pairs`: all lines with their files, in order.
-/

namespace CoverageFlow

/-- The lines of each source file, by the symbol of its name. -/
abbrev LineMap : Type := Std.ExtTreeMap Symbol (Std.ExtTreeSet UInt32)

namespace LineMap

/-- Adds a line of a file. -/
def insert (lines : LineMap) (file : Symbol) (line : UInt32) : LineMap :=
  Std.ExtTreeMap.insert lines file ((lines.getD file ∅).insert line)

/-- Adds several lines of a file, which is then present even if there are none. -/
def insertMany (lines : LineMap) (file : Symbol) (new : List UInt32) : LineMap :=
  Std.ExtTreeMap.insert lines file ((lines.getD file ∅).insertMany new)

/-- Adds the lines that entries state. The lines before the first file name belong to `file`. -/
def record (lines : LineMap) (file : Symbol) : List (Line Symbol) → LineMap
  | [] => lines
  | .file file :: items => record lines file items
  | .number line :: items => record (lines.insert file line) file items

/-- All lines with their files, ordered by file and line. -/
def pairs (lines : LineMap) : List (Symbol × UInt32) :=
  lines.toList.flatMap fun (file, lines) => lines.toList.map fun line => (file, line)

end LineMap

end CoverageFlow
