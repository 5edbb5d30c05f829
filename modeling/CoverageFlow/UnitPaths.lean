import CoverageFlow.Error
import CoverageFlow.Path

/-!
# Unit paths

A notes file and the data file next to it have the same path up to the extension. Reports are
named after that path and after the source file they are about.

## Main definitions

* `UnitPaths`: the paths that belong to a notes file.
* `UnitPaths.ofPath`: those of a path with the extension of notes files.
* `UnitPaths.reportPath`: the name of the report about a source file.
-/

namespace CoverageFlow

/-- The paths that belong to a notes file. -/
structure UnitPaths where
  notesPath : Path
  dataPath : Path
  /-- The path of the notes file without extension, as one name. -/
  stem : String
deriving BEq, Inhabited

namespace UnitPaths

/-- The paths of a notes file, whose path must have the right extension. As every `Path`, it is a
text; notes files with other paths are not represented. -/
def ofPath (path : Path) : Except Error UnitPaths :=
  if path.extension? = some FileType.notes.extension then
    .ok {
      notesPath := path
      dataPath := path.replaceExtension FileType.data.extension
      stem := (path.replaceExtension "").flatten }
  else .error (.notANotesPath path.text)

theorem ofPath_eq_ok_iff {path : Path} {paths : UnitPaths} : ofPath path = .ok paths ↔
    path.extension? = some "gcno" ∧
      paths = ⟨path, path.replaceExtension "gcda", (path.replaceExtension "").flatten⟩ := by
  rw [ofPath]
  split
  · next h =>
    rw [Except.ok.injEq, eq_comm]
    exact (and_iff_right h).symm
  · next h => exact iff_of_false (by rintro ⟨⟩) fun hpaths => h hpaths.1

/-- The name of the report about a source file. -/
def reportPath (paths : UnitPaths) (source : String) : String :=
  paths.stem ++ "##" ++ (Path.mk source).flatten ++ ".gcov"

/-- Unit paths are ordered by the paths of their notes files. -/
instance : Ord UnitPaths where
  compare a b := compare a.notesPath b.notesPath

end UnitPaths

end CoverageFlow
