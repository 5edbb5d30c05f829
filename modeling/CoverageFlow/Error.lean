import CoverageFlow.Record.Basic
import CoverageFlow.Text.JsonFault
import CoverageFlow.Text.Utf8

/-!
# Errors, places and warnings

An error is a cause. On its way out of the library it collects the places it passed: an offset in
a file, a function, a file. A warning is something worth telling that stops nothing.

## Main definitions

* `Error`: the causes, with their text `Error.text`, a short description and a `Category`.
* `Place`: where an error was met.
* `Failure`: an error with the places it passed, innermost first.
* `Warning`: what is told beside a result.
-/

namespace CoverageFlow

/-! ### Causes -/

/-- Why a file could not be read. -/
inductive FileFault where
  | notFound
  | other (text : String)
deriving DecidableEq

/-- The text of a file fault. -/
def FileFault.message : FileFault → String
  | .notFound => "No such file or directory (os error 2)"
  | .other text => text

/-- How a flow graph is broken. -/
inductive GraphDefect where
  | blockOutOfRange
  | lacksEntryOrExit
  | arcToEntry
  | arcFromExit
  | mergedTwice
  | other (text : String)
deriving DecidableEq

/-- The text of a graph defect. -/
def GraphDefect.message : GraphDefect → String
  | .blockOutOfRange => "block index out of range"
  | .lacksEntryOrExit => "lacks entry and/or exit blocks"
  | .arcToEntry => "has arcs to entry block"
  | .arcFromExit => "has arcs from exit block"
  | .mergedTwice => "arc counts merged twice"
  | .other text => text

/-- What was being read when a record did not fit. -/
inductive Expectation where
  | functionGraph
  | basicBlocks
  | arcsOrLines
  | arcCounts
  | functionDataOrSummary
  | other (text : String)
deriving DecidableEq

/-- The text of an expectation. -/
def Expectation.message : Expectation → String
  | .functionGraph => "function graph"
  | .basicBlocks => "basic blocks"
  | .arcsOrLines => "arcs or lines"
  | .arcCounts => "arc counts"
  | .functionDataOrSummary => "function data or summary"
  | .other text => text

/-- The causes of failure. -/
inductive Error where
  /-- A cause that is only told by its text. -/
  | message (text : String)
  /-- A file cannot be read. -/
  | file (fault : FileFault)
  /-- A name is not UTF-8. -/
  | invalidUtf8 (fault : Utf8.Fault)
  /-- A JSON text is broken. -/
  | json (fault : JsonFault)
  /-- The path of a notes file lacks its extension, so the data file cannot be found. -/
  | notANotesPath (path : String)
  /-- A file is neither notes nor data. -/
  | unknownFileType (magic : UInt32)
  /-- A file is of the other kind. -/
  | wrongFileType (expected actual : FileType)
  /-- The input or a record ends too early. -/
  | endOfFile
  /-- A record is unknown or out of sequence. -/
  | unexpectedTag (tag : Tag) (reading : Expectation)
  /-- The flow graph of a function is broken. -/
  | malformedGraph (function : String) (defect : GraphDefect)
  /-- A count would be negative or too large, so the counts cannot belong to this graph. -/
  | inconsistentFlow (function : String) (block : Nat)
  /-- The given counts do not determine the others. -/
  | unsolvable (function : String) (remaining : Nat)
  /-- The two files have different versions. -/
  | versionMismatch (expected actual : Version)
  /-- The two files come from different compilations. -/
  | stampMismatch (expected actual : UInt32)
  /-- A function was compiled anew between the two files. -/
  | checksumMismatch (function : String) (expected actual : UInt32)
  /-- A function has another number of counts than arcs to be counted. -/
  | countsMismatch (function : String) (expected actual : Nat)
deriving DecidableEq

/-- A broad classification of errors. -/
inductive Category where
  /-- A file cannot be accessed. -/
  | io
  /-- A file is broken. -/
  | corruption
  /-- A record is out of sequence, a special kind of corruption. -/
  | unexpectedTag
  /-- The two files do not belong together. -/
  | mismatch
deriving DecidableEq

namespace Error

/-- The text of an error. -/
def text : Error → String
  | message text => text
  | file fault => fault.message
  | invalidUtf8 fault => fault.message
  | json fault => fault.message
  | notANotesPath path => path ++ ": suffix is not '.gcno'"
  | unknownFileType magic =>
    "unknown file type, magic " ++ Text.wordHex magic ++ " not recognized"
  | wrongFileType expected actual =>
    "expecting a *." ++ expected.extension ++ " file, found a *." ++ actual.extension ++ " file"
  | endOfFile => "unexpected end of file"
  | unexpectedTag tag reading =>
    "unexpected tag " ++ tag.text ++ " while reading " ++ reading.message
  | malformedGraph function defect =>
    "malformed graph of '" ++ function ++ "': " ++ defect.message
  | inconsistentFlow function block =>
    "inconsistent flow in '" ++ function ++ "': counts around block " ++ Text.decimal block ++
      " are negative or overflow"
  | unsolvable function remaining =>
    "graph of '" ++ function ++ "' is unsolvable: " ++ Text.decimal remaining ++
      " blocks remain unknown"
  | versionMismatch expected actual =>
    "version mismatch, *.gcno has \"" ++ expected.text ++ "\", *.gcda has \"" ++ actual.text ++ "\""
  | stampMismatch expected actual =>
    "stamp mismatch, *.gcno has " ++ Text.wordHex expected ++ ", *.gcda has " ++
      Text.wordHex actual
  | checksumMismatch function expected actual =>
    "checksum mismatch for '" ++ function ++ "', *.gcno has " ++ Text.wordHex expected ++
      ", *.gcda has " ++ Text.wordHex actual
  | countsMismatch function expected actual =>
    "arc counts mismatch for '" ++ function ++ "', expecting " ++ Text.decimal expected ++
      " arcs, received " ++ Text.decimal actual

/-- What kind of thing went wrong, in a few words; a cause met outside this library has no
description but its own text. -/
def description : Error → Option String
  | message text => some text
  | file _ | invalidUtf8 _ | json _ => none
  | notANotesPath _ => some "not a *.gcno path"
  | unknownFileType _ => some "unknown file type"
  | wrongFileType .. => some "wrong file type"
  | endOfFile => some "unexpected end of file"
  | unexpectedTag .. => some "unexpected tag"
  | malformedGraph .. => some "malformed graph"
  | inconsistentFlow .. => some "inconsistent flow"
  | unsolvable .. => some "graph is unsolvable"
  | versionMismatch .. => some "version mismatch"
  | stampMismatch .. => some "stamp mismatch"
  | checksumMismatch .. => some "checksum mismatch"
  | countsMismatch .. => some "counts mismatch"

/-- The class of an error. -/
def category : Error → Category
  | message _ | file _ | notANotesPath _ => .io
  | unexpectedTag .. => .unexpectedTag
  | versionMismatch .. | stampMismatch .. | checksumMismatch .. | countsMismatch .. => .mismatch
  | invalidUtf8 _ | json _ | unknownFileType _ | wrongFileType .. | endOfFile | malformedGraph ..
  | inconsistentFlow .. | unsolvable .. => .corruption

/-- Whether an error means that a file is broken. -/
def suggestsCorruption (e : Error) : Bool :=
  match e.category with
  | .corruption | .unexpectedTag => true
  | .io | .mismatch => false

end Error

/-- The version with the given text. -/
def Version.ofText (s : String) : Except Error Version :=
  match Version.ofText? s with
  | some v => .ok v
  | none => .error (.message "version string must have exactly 4 bytes")

/-! ### Failures -/

/-- Where an error was met. -/
inductive Place where
  /-- A byte offset from the start of the file. -/
  | offset (position : Nat)
  | file (path : String)
  | function (name : String)
deriving DecidableEq

/-- The text that leads to a place. -/
def Place.text : Place → String
  | offset position =>
    "At file offset " ++ Text.decimal position ++ " (0x" ++ Text.hexadecimal position ++ "):"
  | file path => "In file '" ++ path ++ "':"
  | function name => "In function '" ++ name ++ "':"

/-- An error with the places it passed, innermost first. -/
structure Failure where
  error : Error
  trail : List Place
deriving DecidableEq

namespace Failure

/-- An error of which no place is known. -/
def bare (e : Error) : Failure := ⟨e, []⟩

/-- An error met at an offset of the file. -/
def atPosition (position : Nat) (e : Error) : Failure := ⟨e, [.offset position]⟩

/-- The failure after it passed one more place. -/
def passing (f : Failure) (place : Place) : Failure :=
  { f with trail := f.trail ++ [place] }

end Failure

/-! ### Warnings -/

/-- Something worth telling that stops nothing. -/
inductive Warning where
  /-- A notes file announces an identifier again; the last function counts. -/
  | duplicateFunction (notesPath : String) (ident : Ident)
  /-- A data file has counts of a function that the notes file does not know. -/
  | unknownFunction (notesPath : String) (ident : Ident)
  /-- There is no data file. -/
  | dataMissing (dataPath : String)
  /-- The notes file is newer than the data file. -/
  | stale (notesPath : String)
deriving DecidableEq

/-- The text of a warning. -/
def Warning.text : Warning → String
  | duplicateFunction path ident =>
    path ++ ": duplicated function id '" ++ ident.text ++ "', keeping the last one"
  | unknownFunction path ident => path ++ ": unknown function id '" ++ ident.text ++ "'"
  | dataMissing path => path ++ ": data file not found, counts are unknown"
  | stale path => path ++ ": gcno file is newer than gcda file"

end CoverageFlow
