import CoverageFlow.Reader.Basic
import CoverageFlow.Record.Notes

/-!
# Reading notes files

After the header a notes file holds one group of records for each function: the announcement, the
blocks, and then records of arcs and of lines until the next announcement or the end of the file.
Names of source files are pooled while they are read; a name that was pooled before a failure
stays pooled.

## Main definitions

* `NotesState`, `NotesDecoder`: a reading step that can pool names.
* `NotesDecoder.segment`: the next record of arcs or lines of the current function.
* `NotesDecoder.functionGroup`: the records of the next function.
* `NotesDecoder.notesFile`: the rest of a notes file.
-/

namespace CoverageFlow

/-- A reader together with the names pooled so far. -/
structure NotesState where
  reader : Reader
  symbols : SymbolTable
deriving Inhabited

/-- A reading step that can pool names. It keeps reader and names when it fails. -/
abbrev NotesDecoder (α : Type) : Type := EStateM Failure NotesState α

/-- The number of bytes not yet read. -/
def NotesState.remaining (s : NotesState) : Nat :=
  s.reader.remaining

namespace NotesDecoder

/-- A step that pools no name. -/
def reading {α : Type} (step : Decoder α) : NotesDecoder α := fun s =>
  match step s.reader with
  | .ok a r => .ok a { s with reader := r }
  | .error e r => .error e { s with reader := r }

instance : MonadLift Decoder NotesDecoder where
  monadLift := reading

/-- Runs a step on the body of a record; the reader of the file does not move. -/
def within {α : Type} (body : Reader) (step : NotesDecoder α) : NotesDecoder α := fun s =>
  match step { s with reader := body } with
  | .ok a s' => .ok a { s' with reader := s.reader }
  | .error e s' => .error e { s' with reader := s.reader }

/-- Pools a name. -/
def intern (name : String) : NotesDecoder Symbol := fun s =>
  let (symbol, symbols) := s.symbols.intern name
  .ok symbol { s with symbols := symbols }

/-- The next name as a symbol; an absent name is the unknown symbol. -/
def symbol : NotesDecoder Symbol := do
  match ← Decoder.string with
  | some name => intern name
  | none => return .unknown

/-! ### Bodies of records -/

/-- The body of an announcement. -/
def announcement : NotesDecoder (Announcement Symbol) := do
  let ident ← Decoder.word
  let checksum ← Decoder.word
  let name ← Decoder.string
  let source ← symbol
  let line ← Decoder.word
  return { ident := ⟨ident⟩, checksum, name := name.getD "", source, line }

/-- The body of a record of blocks: a word of flags for each block. -/
def blocks : Decoder (List UInt32) :=
  Decoder.untilEmpty Decoder.word Decoder.consumes_word

/-- An arc: its destination and its flags. -/
def arc : Decoder ArcRecord := do
  let target ← Decoder.word
  let flags ← Decoder.word
  return ⟨⟨target⟩, flags⟩

theorem consumes_arc : Decoder.Consumes arc :=
  Decoder.consumes_word.bind fun _ => Decoder.consumes_word.keeps.bind fun _ => keeps_pure _

/-- The body of a record of arcs: their source, then the arcs. -/
def arcs : Decoder ArcsRecord := do
  let source ← Decoder.word
  let arcs ← Decoder.untilEmpty arc consumes_arc
  return ⟨⟨source⟩, arcs⟩

/-- The next entry of a record of lines: a line number, or a zero and the name of a file. A zero
without a name ends the entries. -/
def line : NotesDecoder (Option (Line Symbol)) := do
  let number ← Decoder.word
  if number ≠ 0 then
    return some (.number number)
  match ← Decoder.string with
  | some name => return some (.file (← intern name))
  | none => return none

/-! ### What a step leaves -/

section

variable {α : Type}

theorem keeps_reading {p : Decoder α} (h : Decoder.Keeps p) :
    Keeps NotesState.remaining (reading p) := by
  intro s a s' hs
  unfold reading at hs
  split at hs
  · next hr => cases hs; exact h _ _ _ hr
  · cases hs

theorem consumes_reading {p : Decoder α} (h : Decoder.Consumes p) :
    Consumes NotesState.remaining (reading p) := by
  intro s a s' hs
  unfold reading at hs
  split at hs
  · next hr => cases hs; exact h _ _ _ hr
  · cases hs

theorem keeps_within (body : Reader) (p : NotesDecoder α) :
    Keeps NotesState.remaining (within body p) := by
  intro s a s' hs
  unfold within at hs
  split at hs <;> cases hs
  exact Nat.le_refl _

theorem keeps_intern (name : String) : Keeps NotesState.remaining (intern name) := by
  intro s a s' hs
  cases hs
  exact Nat.le_refl _

theorem consumes_line : Consumes NotesState.remaining line := by
  refine (consumes_reading Decoder.consumes_word).bind fun _ => ?_
  split
  · exact keeps_pure _
  · refine (consumes_reading Decoder.consumes_string).keeps.bind fun _ => ?_
    split
    · exact (keeps_intern _).bind fun _ => keeps_pure _
    · exact keeps_pure _

end

/-- The body of a record of lines: its block, then the entries. -/
def lines : NotesDecoder (LinesRecord Symbol) := do
  let block ← Decoder.word
  let items ← repeatWhile NotesState.remaining (fun _ => line) (fun _ => consumes_line.yields) none
  return ⟨⟨block⟩, items⟩

/-! ### Functions -/

/-- The next record of the current function, unless another function is announced or the file
ends. -/
def segment : NotesDecoder (Option (Segment Symbol)) := do
  let r := (← get).reader
  if r.isFinished then
    return none
  match r.nextTag with
  | none => Decoder.failAt r.position (.unexpectedTag ⟨0⟩ .arcsOrLines)
  | some tag =>
    if tag = Tag.function then
      return none
    else if tag = Tag.arcs then
      let (_, body) ← Decoder.record
      return some (.arcs (← Decoder.within body arcs))
    else if tag = Tag.lines then
      let (_, body) ← Decoder.record
      return some (.lines (← within body lines))
    else Decoder.failAt r.position (.unexpectedTag tag .arcsOrLines)

theorem yields_segment : Yields NotesState.remaining segment := by
  refine keeps_get.bind_yields fun _ => ?_
  dsimp only
  split
  · exact yields_none
  split
  · exact (consumes_reading (consumes_throw _)).yields
  split
  · exact yields_none
  split
  · exact ((consumes_reading Decoder.consumes_record).bind fun _ =>
      (keeps_reading (Decoder.keeps_within _ _)).bind fun _ => keeps_pure _).yields
  split
  · exact ((consumes_reading Decoder.consumes_record).bind fun _ =>
      (keeps_within _ _).bind fun _ => keeps_pure _).yields
  · exact (consumes_reading (consumes_throw _)).yields

/-- The records of the next function. -/
def functionGroup : NotesDecoder (FunctionGroup Symbol) := do
  let body ← Decoder.recordWithTag Tag.function .functionGraph
  let announcement ← within body announcement
  let body ← Decoder.recordWithTag Tag.blocks .basicBlocks
  let blocks ← Decoder.within body blocks
  let segments ← repeatWhile NotesState.remaining (fun _ => segment) (fun _ => yields_segment) none
  return { announcement, blocks, segments }

theorem consumes_functionGroup : Consumes NotesState.remaining functionGroup :=
  (consumes_reading (Decoder.consumes_recordWithTag _ _)).bind fun _ =>
    (keeps_within _ _).bind fun _ =>
    (consumes_reading (Decoder.consumes_recordWithTag _ _)).keeps.bind fun _ =>
    (keeps_reading (Decoder.keeps_within _ _)).bind fun _ =>
    (keeps_repeatWhile (fun _ => yields_segment) none).bind fun _ => keeps_pure _

/-- The next function, unless the file ends. -/
def nextFunction : NotesDecoder (Option (FunctionGroup Symbol)) := do
  if (← get).reader.isFinished then
    return none
  return some (← functionGroup)

theorem yields_nextFunction : Yields NotesState.remaining nextFunction := by
  refine keeps_get.bind_yields fun _ => ?_
  split
  · exact yields_none
  · exact (consumes_functionGroup.bind fun _ => keeps_pure _).yields

/-- The rest of a notes file. -/
def notesFile : NotesDecoder (NotesFile Symbol) := do
  let r := (← get).reader
  if r.fileType ≠ .notes then
    throw (.bare (.wrongFileType .notes r.fileType))
  let groups ← repeatWhile NotesState.remaining (fun _ => nextFunction)
    (fun _ => yields_nextFunction) none
  return {
    version := r.version
    stamp := r.stamp
    functions := groups.map FunctionGroup.record }

end NotesDecoder

end CoverageFlow
