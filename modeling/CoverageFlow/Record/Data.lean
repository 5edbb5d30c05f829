import CoverageFlow.Count
import CoverageFlow.Record.Basic

/-!
# Records of a data file

A data file holds the counts of functions, interleaved with statistics. Each program that wrote
into the file left one object summary, and possibly program summaries after it.

## Main definitions

* `FunctionData`: the counts of one function.
* `Summary`: statistics over an object file or a program.
* `DataUnit`: a unit of a data file.
* `DataFile`: a decoded data file.
-/

namespace CoverageFlow

/-- The counts of the arcs of one function that are off its spanning tree, in the order of the
notes file. -/
structure FunctionData where
  ident : Ident
  checksum : UInt32
  counts : List Count
deriving DecidableEq, Inhabited

/-- Statistics over an object file or a program. -/
structure Summary where
  checksum : UInt32
  /-- The number of counts. -/
  num : UInt32
  /-- The number of runs. -/
  runs : UInt32
  /-- The sum of all counts. -/
  sum : UInt64
  /-- The largest count of a single run. -/
  max : UInt64
  /-- The sum of the largest counts of all runs. -/
  sumMax : UInt64
deriving DecidableEq, Inhabited

/-- A unit of a data file. -/
inductive DataUnit where
  | function (data : FunctionData)
  | object (summary : Summary)
  | program (summary : Summary)
deriving DecidableEq, Inhabited

namespace DataUnit

/-- The counts of a unit that holds counts. -/
def function? : DataUnit → Option FunctionData
  | .function data => some data
  | _ => none

/-- The summary of a unit that is an object summary. -/
def object? : DataUnit → Option Summary
  | .object summary => some summary
  | _ => none

/-- The summary of a unit that is a program summary. -/
def program? : DataUnit → Option Summary
  | .program summary => some summary
  | _ => none

end DataUnit

/-- A decoded data file. -/
structure DataFile where
  version : Version
  /-- A token that the notes file of the same compilation repeats. -/
  stamp : UInt32
  functions : List FunctionData
  /-- One summary for each program that wrote into the file. -/
  objects : List Summary
  programs : List Summary
deriving DecidableEq, Inhabited

namespace DataFile

/-- The data file made of the given units. -/
def ofUnits (version : Version) (stamp : UInt32) (units : List DataUnit) : DataFile where
  version := version
  stamp := stamp
  functions := units.filterMap DataUnit.function?
  objects := units.filterMap DataUnit.object?
  programs := units.filterMap DataUnit.program?

/-- The number of runs that the last object summary records. -/
def runs (file : DataFile) : UInt32 :=
  (file.objects.getLast?.map Summary.runs).getD 0

end DataFile

end CoverageFlow
