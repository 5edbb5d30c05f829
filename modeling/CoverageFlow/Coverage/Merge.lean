import CoverageFlow.Coverage.Basic
import CoverageFlow.Graph.Build
import CoverageFlow.Graph.Merge
import CoverageFlow.Reader.Data
import CoverageFlow.Reader.Notes

/-!
# Reading coverage

The coverage of a compilation unit is read from the bytes of its notes file and then completed
with the bytes of its data file. A data file may hold several records about one function, one for
each program; their counts are added up first, and each function is merged once.

## Main definitions

* `Coverage.ofNotes`: the functions of a notes file, without counts.
* `Coverage.totals`: the counts of all programs added up.
* `Coverage.withData`: the functions with the counts of a data file.
* `Coverage.read`: both together.
-/

namespace CoverageFlow

/-! ### Sums of counts -/

/-- The sums of two rows of counts, unless one of them is too large. -/
def Count.addRows? : List Count → List Count → Option (List Count)
  | a :: as, b :: bs => do
    let sum ← Count.add? a b
    let sums ← addRows? as bs
    return sum :: sums
  | as, _ => some as

namespace FunctionData

/-- The counts of two records about one function, called `name` in errors; a sum that is too large
is blamed on the entry block. -/
def add (name : String) (a b : FunctionData) : Except Error FunctionData :=
  if a.checksum ≠ b.checksum then
    .error (.checksumMismatch name a.checksum b.checksum)
  else if a.counts.length ≠ b.counts.length then
    .error (.countsMismatch name a.counts.length b.counts.length)
  else
    match Count.addRows? a.counts b.counts with
    | none => .error (.inconsistentFlow name 0)
    | some counts => .ok { a with counts }

end FunctionData

namespace Coverage

/-! ### Notes -/

/-- The rest of a notes file, with the names that it pools. -/
def decodeNotes (bytes : List UInt8) : Except Failure (NotesFile Symbol × SymbolTable) := do
  let reader ← Reader.ofBytes bytes
  match NotesDecoder.notesFile ⟨reader, .empty⟩ with
  | .ok file s => return (file, s.symbols)
  | .error e _ => throw e

/-- Adds the function of a record. A function with the same identifier is replaced. -/
def addFunction (path : Path) (functions : Std.ExtTreeMap Ident FunctionGraph)
    (record : FunctionRecord Symbol) : Logged (Std.ExtTreeMap Ident FunctionGraph) := do
  let f ← Logged.passing (.file path.text) <|
    .ofExcept ((FunctionGraph.ofRecord record).mapError .bare)
  if functions.contains f.ident then
    Logged.warn (.duplicateFunction path.text f.ident)
  return functions.insert f.ident f

/-- The functions of a notes file, without counts. -/
def ofNotes (paths : UnitPaths) (bytes : List UInt8) : Logged Coverage := do
  let (file, symbols) ← Logged.passing (.file paths.notesPath.text) <|
    .ofExcept (decodeNotes bytes)
  let functions ← file.functions.foldlM (addFunction paths.notesPath) ∅
  return {
    paths, version := file.version, stamp := file.stamp, functions, symbols
    runs := 0, programs := 0, status := .missing }

/-! ### Data -/

/-- The rest of a data file. -/
def decodeData (bytes : List UInt8) : Except Failure DataFile := do
  let reader ← Reader.ofBytes bytes
  match Decoder.dataFile reader with
  | .ok file _ => return file
  | .error e _ => throw e

/-- Adds a record to the sums. -/
def addRecord (name : Ident → String) (sums : Std.ExtTreeMap Ident FunctionData)
    (record : FunctionData) : Except Error (Std.ExtTreeMap Ident FunctionData) :=
  match sums[record.ident]? with
  | none => .ok (sums.insert record.ident record)
  | some sum => do return sums.insert record.ident (← sum.add (name record.ident) record)

/-- The counts of each function, added up over all records about it. -/
def totals (name : Ident → String) (records : List FunctionData) :
    Except Error (Std.ExtTreeMap Ident FunctionData) :=
  records.foldlM (addRecord name) ∅

/-- Merges the counts of one function. Counts of a function that is not known are left out. -/
def mergeFunction (c : Coverage) (data : FunctionData) : Logged Coverage :=
  match c.function? data.ident with
  | none => do
    Logged.warn (.unknownFunction c.paths.notesPath.text data.ident)
    return c
  | some f =>
    match f.merge data with
    | .ok () f => pure { c with functions := c.functions.insert data.ident f }
    | .error e _ => throw e

/-- Merges a decoded data file, which must belong to the notes file. -/
def mergeFile (c : Coverage) (file : DataFile) : Logged Coverage := do
  if file.version ≠ c.version then
    throw (.bare (.versionMismatch c.version file.version))
  if file.stamp ≠ c.stamp then
    throw (.bare (.stampMismatch c.stamp file.stamp))
  let sums ← Logged.ofExcept ((totals c.nameOf file.functions).mapError .bare)
  let c ← (sums.toList.map Prod.snd).foldlM mergeFunction c
  return { c with runs := file.runs, programs := file.programs.length, status := .merged }

/-- Merges the counts of a data file. -/
def withData (c : Coverage) (bytes : List UInt8) : Logged Coverage :=
  Logged.passing (.file c.paths.dataPath.text) do
    c.mergeFile (← Logged.ofExcept (decodeData bytes))

/-- The coverage of a unit, from the bytes of its notes file and of its data file. -/
def read (paths : UnitPaths) (notes : List UInt8) (data : Option (List UInt8)) :
    Logged Coverage := do
  let c ← ofNotes paths notes
  match data with
  | none => return c
  | some data => c.withData data

end Coverage

end CoverageFlow
