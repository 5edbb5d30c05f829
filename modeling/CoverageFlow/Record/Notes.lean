import CoverageFlow.Record.Basic
import CoverageFlow.Symbol

/-!
# Records of a notes file

A notes file describes its functions one after the other. Each function is announced, then come
the flags of all its blocks, then any number of records that list the arcs leaving a block or the
source lines of a block.

## Main definitions

* `ArcRecord`, `ArcsRecord`: arcs that leave one block.
* `Line`, `LinesRecord`: source lines of one block.
* `FunctionGroup`: the records of one function in the order of a file.
* `FunctionRecord`: the same records sorted by kind.
* `NotesFile`: a decoded notes file.

What stands for the name of a source file is a parameter of these types: the name itself in a file,
a symbol once the file is read. Each type has a `mapFiles` that replaces the one by the other.
-/

namespace CoverageFlow

variable {φ ψ : Type}

/-- An arc, given by its destination; its source is that of the record it stands in. -/
structure ArcRecord where
  target : BlockIndex
  flags : UInt32
deriving DecidableEq, Inhabited

/-- Arcs that leave one block. -/
structure ArcsRecord where
  source : BlockIndex
  arcs : List ArcRecord
deriving DecidableEq, Inhabited

/-- An entry of a record of source lines. -/
inductive Line (φ : Type) where
  /-- A line of the current file. -/
  | number (n : UInt32)
  /-- The file of the lines that follow. -/
  | file (name : φ)
deriving DecidableEq, Inhabited

/-- Replaces the file of an entry. -/
def Line.mapFiles (f : φ → ψ) : Line φ → Line ψ
  | .number n => .number n
  | .file name => .file (f name)

/-- An entry in diagnostics. -/
def Line.debugText : Line Symbol → String
  | .number n => "Line(" ++ Text.decimal n.toNat ++ ")"
  | .file name => "Line(" ++ name.debugText ++ ")"

/-- Source lines of one block. -/
structure LinesRecord (φ : Type) where
  block : BlockIndex
  items : List (Line φ)
deriving DecidableEq, Inhabited

/-- Replaces the files of a record. -/
def LinesRecord.mapFiles (f : φ → ψ) (record : LinesRecord φ) : LinesRecord ψ where
  block := record.block
  items := record.items.map (Line.mapFiles f)

/-- The announcement of a function. -/
structure Announcement (φ : Type) where
  ident : Ident
  checksum : UInt32
  name : String
  /-- The file that declares the function. -/
  source : φ
  /-- The line of the declaration. -/
  line : UInt32
deriving DecidableEq, Inhabited

/-- Replaces the file of an announcement. -/
def Announcement.mapFiles (f : φ → ψ) (a : Announcement φ) : Announcement ψ where
  ident := a.ident
  checksum := a.checksum
  name := a.name
  source := f a.source
  line := a.line

/-- All records of one function. -/
structure FunctionRecord (φ : Type) extends Announcement φ where
  /-- The flags of each block. -/
  blocks : List UInt32
  arcs : List ArcsRecord
  lines : List (LinesRecord φ)
deriving DecidableEq, Inhabited

/-- Replaces the files of all records of a function. -/
def FunctionRecord.mapFiles (f : φ → ψ) (record : FunctionRecord φ) : FunctionRecord ψ where
  toAnnouncement := record.toAnnouncement.mapFiles f
  blocks := record.blocks
  arcs := record.arcs
  lines := record.lines.map (LinesRecord.mapFiles f)

/-- A decoded notes file. -/
structure NotesFile (φ : Type) where
  version : Version
  /-- A token that a data file of the same compilation repeats. -/
  stamp : UInt32
  functions : List (FunctionRecord φ)
deriving DecidableEq, Inhabited

/-- Replaces all files of a notes file. -/
def NotesFile.mapFiles (f : φ → ψ) (file : NotesFile φ) : NotesFile ψ where
  version := file.version
  stamp := file.stamp
  functions := file.functions.map (FunctionRecord.mapFiles f)

/-- A record that may follow the blocks of a function. -/
inductive Segment (φ : Type) where
  | arcs (record : ArcsRecord)
  | lines (record : LinesRecord φ)
deriving DecidableEq, Inhabited

namespace Segment

/-- Replaces the files of a segment. -/
def mapFiles (f : φ → ψ) : Segment φ → Segment ψ
  | .arcs record => .arcs record
  | .lines record => .lines (record.mapFiles f)

/-- The arcs of a segment that lists arcs. -/
def arcs? : Segment φ → Option ArcsRecord
  | .arcs record => some record
  | .lines _ => none

/-- The lines of a segment that lists lines. -/
def lines? : Segment φ → Option (LinesRecord φ)
  | .arcs _ => none
  | .lines record => some record

end Segment

/-- The records of a function as they follow one another in a file. -/
structure FunctionGroup (φ : Type) where
  announcement : Announcement φ
  /-- The flags of each block. -/
  blocks : List UInt32
  segments : List (Segment φ)
deriving DecidableEq, Inhabited

namespace FunctionGroup

/-- Replaces the files of all records of a function. -/
def mapFiles (f : φ → ψ) (group : FunctionGroup φ) : FunctionGroup ψ where
  announcement := group.announcement.mapFiles f
  blocks := group.blocks
  segments := group.segments.map (Segment.mapFiles f)

/-- The record of a function, with the segments sorted by kind in their order. -/
def record (group : FunctionGroup φ) : FunctionRecord φ where
  toAnnouncement := group.announcement
  blocks := group.blocks
  arcs := group.segments.filterMap Segment.arcs?
  lines := group.segments.filterMap Segment.lines?

/-- Files can be replaced before or after the records are sorted. -/
theorem record_mapFiles (f : φ → ψ) (group : FunctionGroup φ) :
    (group.mapFiles f).record = group.record.mapFiles f := by
  have harcs : Segment.arcs? ∘ Segment.mapFiles f = (Segment.arcs? : Segment φ → _) := by
    funext s
    cases s <;> rfl
  have hlines : Segment.lines? ∘ Segment.mapFiles f =
      fun s => (Segment.lines? s).map (LinesRecord.mapFiles f) := by
    funext s
    cases s <;> rfl
  simp only [record, mapFiles, FunctionRecord.mapFiles, List.filterMap_map, harcs, hlines,
    List.map_filterMap]

end FunctionGroup

end CoverageFlow
