import CoverageFlow.Text.Split

/-!
# Paths

A path is a text in which `/` separates components. Empty components and components `.` are
ignored, except that a path may start with `/` or with `.`; so two texts can be the same path.

Only paths that are texts are represented, that is those whose bytes are UTF-8. A file system may
have others. In a flat name their other bytes would give way to replacement characters, and two of
them could have the same flat name, so nothing that is said about flat names is said about them.

## Main definitions

* `Path`: a path by its text.
* `Path.Component`, `Path.components`: what the text means, and its order.
* `Path.fileName?`, `Path.extension?`: the last component if it is a name, and what follows its
  last dot.
* `Path.replaceExtension`: the path with another extension.
* `Path.flatten`: the components in one name.
-/

namespace CoverageFlow

/-- A path, given by its text. A path whose bytes are not UTF-8 has none and is not represented. -/
structure Path where
  text : String
deriving Inhabited

namespace Path

/-! ### Components -/

/-- A component of a path. -/
inductive Component where
  /-- The root of the file system, at the start of a path. -/
  | root
  /-- The current directory, at the start of a path. -/
  | current
  /-- The directory above. -/
  | parent
  | name (text : String)
deriving DecidableEq

namespace Component

/-- The rank of a kind of component. -/
def rank : Component → Nat
  | root => 0
  | current => 1
  | parent => 2
  | name _ => 3

/-- The name of a component that has one. -/
def text : Component → String
  | name text => text
  | root | current | parent => ""

/-- The root comes first, then the current directory, the directory above, and the names. -/
instance : Ord Component where
  compare a b := (compare a.rank b.rank).then (compare a.text b.text)

/-- The component that a segment after the first one means. -/
def ofSegment? (segment : String) : Option Component :=
  if segment = "" ∨ segment = "." then none
  else if segment = ".." then some parent
  else some (name segment)

end Component

/-- The texts between the separators. -/
def segments (p : Path) : List String :=
  Text.split '/' p.text

/-- The components of a path. -/
def components (p : Path) : List Component :=
  match p.segments with
  | "" :: rest =>
    if rest.isEmpty then [] else .root :: rest.filterMap Component.ofSegment?
  | "." :: rest => .current :: rest.filterMap Component.ofSegment?
  | segments => segments.filterMap Component.ofSegment?

/-- Two texts are the same path when they have the same components. -/
instance : BEq Path where
  beq p q := p.components == q.components

/-- Paths are ordered by their components; a path that starts with another one comes after it. -/
instance : Ord Path where
  compare p q := compare p.components q.components

/-! ### File name and extension -/

/-- Whether a segment is ignored at the end of a path. -/
def ignorable (segment : String) : Bool :=
  segment = "" || segment = "."

/-- The file name of a path, after the segments before it in reverse order. -/
def splitName? (p : Path) : Option (List String × String) :=
  match p.segments.reverse.dropWhile ignorable with
  | [] => none
  | last :: before => if last = ".." then none else some (before, last)

/-- The last component, if it is a name. -/
def fileName? (p : Path) : Option String :=
  p.splitName?.map Prod.snd

/-- A file name without its extension, and the extension: what follows the last dot, unless that
dot is the first character. -/
def splitExtension (name : String) : String × Option String :=
  match Text.splitLast? '.' name with
  | none => (name, none)
  | some (stem, extension) => if stem = "" then (name, none) else (stem, some extension)

/-- The extension of the file name. -/
def extension? (p : Path) : Option String :=
  p.fileName?.bind fun name => (splitExtension name).2

/-- The path up to its file name, which gets the extension instead of its own; an empty extension
leaves no dot. A path without a file name stays as it is. -/
def setExtension (extension : String) (p : Path) : Path :=
  match p.splitName? with
  | none => p
  | some (before, name) =>
    let stem := (splitExtension name).1
    let name := if extension = "" then stem else stem ++ "." ++ extension
    ⟨Text.join '/' (name :: before).reverse⟩

/-- The path with another extension. As many characters as the old extension has are first cut off
the end of the text, wherever they stand; then the extension of what is left is set. -/
def replaceExtension (extension : String) (p : Path) : Path :=
  match p.extension? with
  | none => p.setExtension extension
  | some old =>
    let kept := p.text.toList.take (p.text.length - old.length)
    setExtension extension ⟨String.ofList kept⟩

/-! ### Flat names -/

/-- How a component is written in a flat name. -/
def flatSegment (segment : String) : String :=
  if segment = ".." then "^" else segment

/-- A path as one name: its components joined by `#`, with `^` for the directory above. An empty
first component, which stands for the root, is kept. -/
def flatten (p : Path) : String :=
  match p.segments with
  | [] => ""
  | first :: rest =>
    let kept := [first].filter (· ≠ ".") ++ rest.filter fun s => !ignorable s
    Text.join '#' (kept.map flatSegment)

end Path

end CoverageFlow
