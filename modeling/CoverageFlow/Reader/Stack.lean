import CoverageFlow.Reader.Data
import CoverageFlow.Reader.Notes

/-!
# Stacks of readers

A reader of a record body can itself be entered, so a file is explored with a stack of readers.
Every operation acts on the reader on top, and the names met on the way are pooled in one table.

## Main definitions

* `ReaderStack`: a reader of the whole file, the readers of the records entered from it, and the
  names pooled so far.
* `ReaderStack.Operation`, `ReaderStack.Value`: what can be asked, and what is answered.
* `ReaderStack.perform`: an operation on the top reader.
-/

namespace CoverageFlow

/-- Readers entered one from the other. -/
structure ReaderStack where
  /-- The reader on top. -/
  top : Reader
  /-- The readers below it, the one of the whole file last. -/
  below : List Reader
  symbols : SymbolTable
deriving Inhabited

namespace ReaderStack

/-- The stack that holds the reader of a whole file. -/
def ofReader (r : Reader) : ReaderStack where
  top := r
  below := []
  symbols := .empty

/-- The number of readers. -/
def depth (s : ReaderStack) : Nat :=
  s.below.length + 1

/-- What can be done with the top reader. -/
inductive Operation where
  | word
  | signedWord
  | long
  | string
  | nextTag
  /-- Reads a record and enters its body. -/
  | enter
  /-- Leaves the top reader, unless it is that of the whole file. -/
  | leave
  | notesFile
  | dataFile
deriving DecidableEq, Inhabited

/-- The answer to an operation. -/
inductive Value where
  | word (value : UInt32)
  | signedWord (value : Int32)
  | long (value : UInt64)
  | string (value : Option String)
  | peeked (tag : Option Tag)
  /-- The tag of the record and the position of its reader after it. -/
  | entered (tag : Tag) (position : Nat)
  /-- The number of readers left. -/
  | left (depth : Nat)
  | notesFile (value : NotesFile Symbol)
  | dataFile (value : DataFile)
deriving DecidableEq, Inhabited

/-- An operation on a stack of readers. It keeps the stack when it fails. -/
abbrev Explorer (α : Type) : Type := EStateM Failure ReaderStack α

/-- A reading step on the top reader. -/
def onTop {α : Type} (step : Decoder α) : Explorer α := fun s =>
  match step s.top with
  | .ok a r => .ok a { s with top := r }
  | .error e r => .error e { s with top := r }

/-- A reading step on the top reader that can pool names. -/
def onTopPooling {α : Type} (step : NotesDecoder α) : Explorer α := fun s =>
  match step ⟨s.top, s.symbols⟩ with
  | .ok a t => .ok a { s with top := t.reader, symbols := t.symbols }
  | .error e t => .error e { s with top := t.reader, symbols := t.symbols }

/-- Puts a reader on top. -/
def push (r : Reader) (s : ReaderStack) : ReaderStack :=
  { s with top := r, below := s.top :: s.below }

/-- Drops the top reader, unless it is the only one. -/
def pop (s : ReaderStack) : ReaderStack :=
  match s.below with
  | [] => s
  | r :: below => { s with top := r, below := below }

/-- Performs an operation. -/
def perform : Operation → Explorer Value
  | .word => return .word (← onTop Decoder.word)
  | .signedWord => return .signedWord (← onTop Decoder.signedWord)
  | .long => return .long (← onTop Decoder.long)
  | .string => return .string (← onTop Decoder.string)
  | .nextTag => return .peeked (← get).top.nextTag
  | .enter => do
    let (tag, body) ← onTop Decoder.record
    let position := (← get).top.position
    modify (push body)
    return .entered tag position
  | .leave => do
    modify pop
    return .left (← get).depth
  | .notesFile => return .notesFile (← onTopPooling NotesDecoder.notesFile)
  | .dataFile => return .dataFile (← onTop Decoder.dataFile)

end ReaderStack

end CoverageFlow
