import CoverageFlow.Record.Data
import CoverageFlow.Writer.Basic

/-!
# Writing data files

The bytes of a data file that is given as a list of units.

## Main definitions

* `Writer.dataFile`: the bytes of a data file.
-/

namespace CoverageFlow.Writer

variable (o : ByteOrder)

/-- The body of a summary. -/
def summary (s : Summary) : List UInt8 :=
  word o s.checksum ++ word o s.num ++ word o s.runs ++ long o s.sum ++ long o s.max ++
    long o s.sumMax

/-- The body that names a function. -/
def functionKey (d : FunctionData) : List UInt8 :=
  word o d.ident.val ++ word o d.checksum

/-- The body of the counts of a function. -/
def counts (d : FunctionData) : List UInt8 :=
  d.counts.flatMap (long o)

/-- The records of a unit. -/
def dataUnit : DataUnit → List UInt8
  | .function d => record o .function (functionKey o d) ++ record o .arcCounts (counts o d)
  | .object s => record o .objectSummary (summary o s)
  | .program s => record o .programSummary (summary o s)

/-- The bytes of a data file. -/
def dataFile (version : Version) (stamp : UInt32) (units : List DataUnit) (marked : Bool) :
    List UInt8 :=
  header o .data version stamp ++ units.flatMap (dataUnit o) ++ ending o marked

end CoverageFlow.Writer
