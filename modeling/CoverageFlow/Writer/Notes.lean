import CoverageFlow.Record.Notes
import CoverageFlow.Writer.Basic

/-!
# Writing notes files

The bytes of a notes file whose functions are given as groups of records, with the names of source
files written out.

## Main definitions

* `Writer.notesFile`: the bytes of a notes file.
-/

namespace CoverageFlow.Writer

variable (o : ByteOrder)

/-- The body that announces a function. -/
def announcementBody (a : Announcement String) : List UInt8 :=
  word o a.ident.val ++ word o a.checksum ++ string o a.name ++ string o a.source ++ word o a.line

/-- The body of the blocks of a function: a word of flags for each. -/
def blocksBody (flags : List UInt32) : List UInt8 :=
  flags.flatMap (word o)

/-- The bytes of an arc. -/
def arc (a : ArcRecord) : List UInt8 :=
  word o a.target.val ++ word o a.flags

/-- The bytes of an entry of a record of lines. -/
def line : Line String → List UInt8
  | .number n => word o n
  | .file name => word o 0 ++ string o name

/-- The tag of a segment. -/
def segmentTag : Segment String → Tag
  | .arcs _ => .arcs
  | .lines _ => .lines

/-- The body of a segment. The entries of a record of lines end with a zero and an absent name. -/
def segmentBody : Segment String → List UInt8
  | .arcs r => word o r.source.val ++ r.arcs.flatMap (arc o)
  | .lines r => word o r.block.val ++ r.items.flatMap (line o) ++ word o 0 ++ word o 0

/-- The record of a segment. -/
def segment (s : Segment String) : List UInt8 :=
  record o (segmentTag s) (segmentBody o s)

/-- The records of a function. -/
def functionGroup (g : FunctionGroup String) : List UInt8 :=
  record o .function (announcementBody o g.announcement) ++
    record o .blocks (blocksBody o g.blocks) ++ g.segments.flatMap (segment o)

/-- The bytes of a notes file. -/
def notesFile (version : Version) (stamp : UInt32) (groups : List (FunctionGroup String))
    (marked : Bool) : List UInt8 :=
  header o .notes version stamp ++ groups.flatMap (functionGroup o) ++ ending o marked

end CoverageFlow.Writer
