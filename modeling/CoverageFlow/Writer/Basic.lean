import CoverageFlow.Reader.ByteOrder
import CoverageFlow.Record.Basic

/-!
# Writing words, names and records

The bytes of the fields that coverage files consist of, in either byte order. A reader consumes
exactly the bytes that are written here for a field.

## Main definitions

* `Writer.word`, `Writer.long`, `Writer.string`: the bytes of a field.
* `Writer.record`: the bytes of a record with a given body.
* `Writer.Fits`: the length of a body can be written.
* `Writer.header`: the bytes before the first record.
* `Writer.ending`: the word of zeros that some writers put at the end of a file.
-/

namespace CoverageFlow

/-- The word that tells the kind of a file. -/
def FileType.magic : FileType → UInt32
  | .notes => 0x67636e6f
  | .data => 0x67636461

namespace Writer

variable (o : ByteOrder)

/-- The bytes of a word. -/
def word (w : UInt32) : List UInt8 :=
  o.bytes w

/-- The bytes of a long number, low word first. -/
def long (n : UInt64) : List UInt8 :=
  word o (UInt32.ofNat n.toNat) ++ word o (UInt32.ofNat (n.toNat / UInt32.size))

/-- The number of words that a name takes, with at least one zero byte after it. -/
def stringWords (bytes : List UInt8) : Nat :=
  bytes.length / 4 + 1

/-- The bytes of a name: its length in words, then its characters, filled with zeros. -/
def string (s : String) : List UInt8 :=
  let bytes := s.toUTF8.data.toList
  let words := stringWords bytes
  word o (UInt32.ofNat words) ++ bytes ++ List.replicate (4 * words - bytes.length) 0

/-- The bytes of a record: tag, length of the body in words, and body. -/
def record (tag : Tag) (body : List UInt8) : List UInt8 :=
  word o tag.word ++ word o (UInt32.ofNat (body.length / 4)) ++ body

/-- The length of a body is a word. -/
def Fits (body : List UInt8) : Prop := body.length / 4 < UInt32.size

instance (body : List UInt8) : Decidable (Fits body) :=
  inferInstanceAs (Decidable (body.length / 4 < UInt32.size))

/-- The bytes before the first record of a file. -/
def header (fileType : FileType) (version : Version) (stamp : UInt32) : List UInt8 :=
  word o fileType.magic ++ word o version.word ++ word o stamp

/-- The end of a file, with or without a word of zeros. -/
def ending (marked : Bool) : List UInt8 :=
  if marked then word o 0 else []

theorem length_word (w : UInt32) : (word o w).length = 4 :=
  ByteOrder.length_bytes o w

theorem length_long (n : UInt64) : (long o n).length = 8 := by
  simp [long, length_word]

theorem length_string (s : String) :
    (string o s).length = 4 + 4 * stringWords s.toUTF8.data.toList := by
  simp only [string, stringWords, List.length_append, length_word, List.length_replicate]
  omega

theorem length_record (tag : Tag) (body : List UInt8) :
    (record o tag body).length = 8 + body.length := by
  simp only [record, List.length_append, length_word]

end Writer

end CoverageFlow
