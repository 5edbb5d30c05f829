import CoverageFlow.Reader.Basic
import CoverageFlow.Record.Data

/-!
# Reading data files

After the header a data file holds units: the counts of a function, which take two records, the
summary of an object file, and the summary of a program. Program summaries follow an object
summary directly, one after the other. A file without any object summary was cut off.

## Main definitions

* `Decoder.dataUnit`: the next unit.
* `Decoder.dataFile`: the rest of a data file.
-/

namespace CoverageFlow.Decoder

/-! ### Bodies of records -/

/-- The body that names a function: its identifier and its checksum. -/
def functionKey : Decoder (Ident × UInt32) := do
  let ident ← word
  let checksum ← word
  return (⟨ident⟩, checksum)

/-- The next count, unless fewer than eight bytes are left. -/
def nextCount : Decoder (Option Count) := do
  if (← get).remaining < 8 then
    return none
  return some (← long)

theorem consumes_long : Consumes long :=
  consumes_word.bind fun _ => consumes_word.keeps.bind fun _ => keeps_pure _

theorem yields_nextCount : Yields Reader.remaining nextCount := by
  refine keeps_get.bind_yields fun _ => ?_
  split
  · exact yields_none
  · exact (consumes_long.bind fun _ => keeps_pure _).yields

/-- The body of a record of counts; an odd word at its end is skipped. -/
def counts : Decoder (List Count) :=
  repeatWhile Reader.remaining (fun _ => nextCount) (fun _ => yields_nextCount) none

/-- The body of a summary. -/
def summary : Decoder Summary := do
  let checksum ← word
  let num ← word
  let runs ← word
  let sum ← long
  let max ← long
  let sumMax ← long
  return { checksum, num, runs, sum, max, sumMax }

/-! ### Units -/

/-- Whether a program summary may follow a unit. -/
def allowsProgram : Option DataUnit → Bool
  | some (.object _) | some (.program _) => true
  | some (.function _) | none => false

/-- The next unit, unless the file ends. -/
def dataUnit (previous : Option DataUnit) : Decoder (Option DataUnit) := do
  let r ← get
  if r.isFinished then
    return none
  let (tag, body) ← record
  if tag = Tag.function then
    let (ident, checksum) ← within body functionKey
    let body ← recordWithTag Tag.arcCounts .arcCounts
    let counts ← within body counts
    return some (.function { ident, checksum, counts })
  else if tag = Tag.objectSummary then
    return some (.object (← within body summary))
  else if tag = Tag.programSummary ∧ allowsProgram previous then
    return some (.program (← within body summary))
  else failAt r.position (.unexpectedTag tag .functionDataOrSummary)

theorem yields_dataUnit (previous : Option DataUnit) :
    Yields Reader.remaining (dataUnit previous) := by
  refine keeps_get.bind_yields fun _ => ?_
  dsimp only
  split
  · exact yields_none
  refine (consumes_record.bind fun _ => ?_).yields
  split
  · exact (keeps_within _ _).bind fun _ => (consumes_recordWithTag _ _).keeps.bind fun _ =>
      (keeps_within _ _).bind fun _ => keeps_pure _
  split
  · exact (keeps_within _ _).bind fun _ => keeps_pure _
  split
  · exact (keeps_within _ _).bind fun _ => keeps_pure _
  · exact keeps_failAt _ _

/-- The rest of a data file. -/
def dataFile : Decoder DataFile := do
  let r ← get
  if r.fileType ≠ .data then
    throw (.bare (.wrongFileType .data r.fileType))
  let units ← repeatWhile Reader.remaining dataUnit yields_dataUnit none
  let file := DataFile.ofUnits r.version r.stamp units
  if file.objects.isEmpty then
    failAt (← get).position .endOfFile
  return file

end CoverageFlow.Decoder
