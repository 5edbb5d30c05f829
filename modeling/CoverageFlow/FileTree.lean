import CoverageFlow.Path

/-!
# File trees

The files below a directory, with their content and the time of their last change. A path is
followed one component at a time from that directory on, so every directory on the way must exist,
also one that the path leaves again.

## Main definitions

* `FileTree`: files and directories by the names that lead to them.
* `FileTree.write`: writes a file, and makes the directories on the way.
* `FileTree.find?`: the file that a path leads to.
-/

namespace CoverageFlow

/-- A file with its content. -/
structure StoredFile where
  content : List UInt8
  /-- When the file was last changed, in seconds. -/
  modified : Int
deriving DecidableEq, Inhabited

/-- The files and directories below a directory. The names that lead to one of them are listed
from the last one to the first. -/
structure FileTree where
  files : List (List String × StoredFile)
  directories : List (List String)
deriving Inhabited

namespace FileTree

/-- The tree without files and directories. -/
def empty : FileTree := ⟨[], []⟩

/-- The names after following one more component. A path leads nowhere if it leaves the tree. -/
def follow (place : List String) : Path.Component → Option (List String)
  | .root => none
  | .current => some place
  | .parent => if place.isEmpty then none else some place.tail
  | .name text => some (text :: place)

/-- The places that a path passes, the last one first. -/
def passed (path : Path) : Option (List (List String)) :=
  path.components.foldlM
    (fun places component => do return (← follow (places.headD []) component) :: places) [[]]

/-- Writes a file, and makes the directories on the way. -/
def write (tree : FileTree) (path : Path) (file : StoredFile) : FileTree :=
  match passed path with
  | some (place :: directories) =>
    { files := (place, file) :: tree.files, directories := directories ++ tree.directories }
  | _ => tree

/-- The file that a path leads to. -/
def find? (tree : FileTree) (path : Path) : Option StoredFile :=
  match passed path with
  | some (place :: directories) =>
    if directories.all fun d => d.isEmpty || tree.directories.contains d then
      tree.files.lookup place
    else none
  | _ => none

end FileTree

end CoverageFlow
