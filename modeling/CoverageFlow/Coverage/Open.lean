import CoverageFlow.Coverage.Merge
import CoverageFlow.FileTree

/-!
# Opening coverage files

The coverage of a unit is read from a notes file and the data file next to it. Without a data file
no count is known. A notes file that is newer than the data file gives a warning, since the data
file may come from an earlier compilation.

## Main definitions

* `Coverage.openFrom`: the coverage of the unit with a given notes file.
-/

namespace CoverageFlow.Coverage

/-- Completes the counts from the data file next to the notes file. -/
def mergeStored (c : Coverage) (notes : StoredFile) (files : FileTree) : Logged Coverage :=
  match files.find? c.paths.dataPath with
  | none => do
    Logged.warn (.dataMissing c.paths.dataPath.text)
    return c
  | some data => do
    if data.modified < notes.modified then
      Logged.warn (.stale c.paths.notesPath.text)
    c.withData data.content

/-- The coverage of the unit with a given notes file. -/
def openFrom (files : FileTree) (path : Path) : Logged Coverage := do
  let paths ← Logged.ofExcept ((UnitPaths.ofPath path).mapError .bare)
  match files.find? paths.notesPath with
  | none => throw (.bare (.file .notFound))
  | some notes => do
    let c ← ofNotes paths notes.content
    c.mergeStored notes files

end CoverageFlow.Coverage
