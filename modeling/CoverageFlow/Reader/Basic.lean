import CoverageFlow.Error
import CoverageFlow.Reader.ByteOrder
import CoverageFlow.Reader.Repeat

/-!
# Readers

A reader is a stretch of a coverage file: the bytes that were not read yet and the offset of the
first of them in the file. Every reading step either consumes what it yields or fails at the
offset of the field that does not fit, and what was consumed before a failure stays consumed.

A file is a sequence of records. A record is a tag, the length of its body in words, and the body.
The body is read through a reader of its own that covers exactly the body, so fields that a newer
compiler appends are skipped.

## Main definitions

* `Reader`: a stretch of a file, and `Reader.ofBytes`: the reader after the header of a file.
* `Decoder`: a reading step.
* `Decoder.word`, `Decoder.signedWord`, `Decoder.long`, `Decoder.string`: the fields.
* `Decoder.record`, `Decoder.recordWithTag`: the next record.
* `Decoder.within`: a step on the body of a record.
-/

namespace CoverageFlow

/-- A stretch of a coverage file. -/
structure Reader where
  /-- The kind of file. -/
  fileType : FileType
  /-- The byte order of the file. -/
  order : ByteOrder
  version : Version
  stamp : UInt32
  /-- The offset of the next byte from the start of the file. -/
  position : Nat
  /-- The bytes not yet read. -/
  unread : List UInt8
deriving DecidableEq, Inhabited

/-- A reading step. It keeps the reader when it fails. -/
abbrev Decoder (α : Type) : Type := EStateM Failure Reader α

namespace Reader

/-- The number of bytes not yet read. -/
def remaining (r : Reader) : Nat :=
  r.unread.length

/-- Whether every byte was read. -/
def isEmpty (r : Reader) : Bool :=
  r.unread.isEmpty

/-- The tag of the next record, if there are bytes enough for one. -/
def nextTag (r : Reader) : Option Tag :=
  match r.unread with
  | a :: b :: c :: d :: _ => some ⟨r.order.word a b c d⟩
  | _ => none

/-- Whether the file ends here. Some writers mark the end by a word of zeros, which is left
unread. -/
def isFinished (r : Reader) : Bool :=
  match r.unread with
  | [] => true
  | [a, b, c, d] => r.order.word a b c d == 0
  | _ => false

end Reader

namespace Decoder

/-- Fails at an offset of the file. -/
def failAt {α : Type} (position : Nat) (e : Error) : Decoder α :=
  throw (Failure.atPosition position e)

/-! ### Fields -/

/-- The next `count` bytes. -/
def take (count : Nat) : Decoder (List UInt8) := fun r =>
  let bytes := r.unread.take count
  if bytes.length = count then
    .ok bytes { r with position := r.position + count, unread := r.unread.drop count }
  else .error (.atPosition r.position .endOfFile) r

/-- The next word. -/
def word : Decoder UInt32 := fun r =>
  match r.unread with
  | a :: b :: c :: d :: rest =>
    .ok (r.order.word a b c d) { r with position := r.position + 4, unread := rest }
  | _ => .error (.atPosition r.position .endOfFile) r

/-- The next word as a signed number. -/
def signedWord : Decoder Int32 := do
  return (← word).toInt32

/-- The next two words as one number, the low word first. -/
def long : Decoder UInt64 := do
  let low ← word
  let high ← word
  return UInt64.ofNat (high.toNat * UInt32.size + low.toNat)

/-- The next name: its length in words, and as many words of UTF-8 that end at the first zero
byte. A length of zero means that there is no name. -/
def string : Decoder (Option String) := do
  let length ← word
  if length = 0 then
    return none
  let start := (← get).position
  let bytes ← take (4 * length.toNat)
  match Utf8.decode (bytes.takeWhile (· ≠ 0)) with
  | .ok s => return some s
  | .error fault => failAt start (.invalidUtf8 fault)

/-! ### Records -/

/-- The next record: its tag and the reader of its body. -/
def record : Decoder (Tag × Reader) := do
  let tag ← word
  let length ← word
  let start := (← get).position
  let body ← take (4 * length.toNat)
  let rest ← get
  return (⟨tag⟩, { rest with position := start, unread := body })

/-- The body of the next record, which must have the given tag. -/
def recordWithTag (tag : Tag) (reading : Expectation) : Decoder Reader := do
  let start := (← get).position
  let (actual, body) ← record
  if actual = tag then
    return body
  else failAt start (.unexpectedTag actual reading)

/-- Runs a step on the body of a record; the reader of the file does not move. -/
def within {α : Type} (body : Reader) (step : Decoder α) : Decoder α := fun r =>
  match step body with
  | .ok a _ => .ok a r
  | .error e _ => .error e r

/-! ### What a step leaves -/

/-- A step that leaves no more bytes than it finds. -/
abbrev Keeps {α : Type} (step : Decoder α) : Prop :=
  CoverageFlow.Keeps Reader.remaining step

/-- A step that leaves fewer bytes than it finds. -/
abbrev Consumes {α : Type} (step : Decoder α) : Prop :=
  CoverageFlow.Consumes Reader.remaining step

theorem keeps_failAt {α : Type} (n : Nat) (e : Error) : Keeps (failAt n e : Decoder α) :=
  (consumes_throw _).keeps

theorem keeps_within {α : Type} (body : Reader) (p : Decoder α) : Keeps (within body p) := by
  intro r b r' h
  unfold within at h
  split at h <;> cases h
  exact Nat.le_refl _

theorem consumes_word : Consumes word := by
  intro r w r' h
  unfold word at h
  split at h
  · next hu =>
    cases h
    simp only [Reader.remaining, hu, List.length_cons]
    omega
  · cases h

theorem keeps_take (n : Nat) : Keeps (take n) := by
  intro r bs r' h
  dsimp only [take] at h
  split at h
  · cases h
    simp [Reader.remaining]
  · cases h

theorem consumes_string : Consumes string := by
  refine consumes_word.bind fun n => ?_
  split
  · exact keeps_pure _
  · refine keeps_get.bind fun _ => (keeps_take _).bind fun _ => ?_
    split
    · exact keeps_pure _
    · exact keeps_failAt _ _

theorem consumes_record : Consumes record :=
  consumes_word.bind fun _ => consumes_word.keeps.bind fun _ => keeps_get.bind fun _ =>
    (keeps_take _).bind fun _ => keeps_get.bind fun _ => keeps_pure _

theorem consumes_recordWithTag (tag : Tag) (reading : Expectation) :
    Consumes (recordWithTag tag reading) := by
  refine keeps_get.bind_consumes fun _ => consumes_record.bind fun _ => ?_
  split
  split
  · exact keeps_pure _
  · exact keeps_failAt _ _

/-! ### Repetition -/

/-- Runs a step unless the reader is empty. -/
def unlessEmpty {α : Type} (step : Decoder α) : Decoder (Option α) := do
  if (← get).isEmpty then
    return none
  return some (← step)

theorem Consumes.yields_unlessEmpty {α : Type} {step : Decoder α} (h : Consumes step) :
    Yields Reader.remaining (unlessEmpty step) := by
  refine keeps_get.bind_yields fun _ => ?_
  split
  · exact yields_none
  · exact (h.bind fun _ => keeps_pure _).yields

/-- The values of a step that is repeated until the reader is empty. -/
def untilEmpty {α : Type} (step : Decoder α) (h : Consumes step) : Decoder (List α) :=
  repeatWhile Reader.remaining (fun _ => unlessEmpty step) (fun _ => h.yields_unlessEmpty) none

end Decoder

/-! ### The header of a file -/

/-- The kind and byte order of a file by its first word, read least significant byte first. -/
def FileType.ofMagic? (magic : UInt32) : Option (FileType × ByteOrder) :=
  if magic = 0x67636e6f then some (.notes, .little)
  else if magic = 0x6f6e6367 then some (.notes, .big)
  else if magic = 0x67636461 then some (.data, .little)
  else if magic = 0x61646367 then some (.data, .big)
  else none

/-- The reader of a file, placed after the header: magic, version and stamp. -/
def Reader.ofBytes (bytes : List UInt8) : Except Failure Reader :=
  match bytes with
  | a :: b :: c :: d :: rest =>
    let magic := ByteOrder.little.word a b c d
    match FileType.ofMagic? magic with
    | none => .error (.bare (.unknownFileType magic))
    | some (fileType, order) =>
      let header : Decoder (UInt32 × UInt32) := do
        let version ← Decoder.word
        let stamp ← Decoder.word
        return (version, stamp)
      match header ⟨fileType, order, ⟨0⟩, 0, 4, rest⟩ with
      | .ok (version, stamp) r => .ok { r with version := ⟨version⟩, stamp := stamp }
      | .error e _ => .error e
  | _ => .error (.bare .endOfFile)

end CoverageFlow
