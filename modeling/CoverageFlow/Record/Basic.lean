import CoverageFlow.Text.Numeral

/-!
# Words of the coverage file formats

The compiler writes a notes file (suffix `gcno`) that describes the flow graph of every function,
and the compiled program writes a data file (suffix `gcda`) that holds execution counts. Both
consist of 32-bit words. This file names the words that have a meaning of their own.

## Main definitions

* `FileType`: notes or data.
* `Tag`: the word that says what a record holds, with the tags of both formats.
* `Version`: the format version, four characters in one word.
* `Ident`: the number by which a function is known in both files.
* `BlockIndex`: the number of a block inside its function.
-/

namespace CoverageFlow

/-! ### File types -/

/-- The two kinds of coverage file. -/
inductive FileType where
  /-- Flow graphs, written by the compiler. -/
  | notes
  /-- Execution counts, written by the compiled program. -/
  | data
deriving DecidableEq, Inhabited

/-- The file name extension of a kind of file. -/
def FileType.extension : FileType → String
  | .notes => "gcno"
  | .data => "gcda"

/-! ### Tags -/

/-- The word that says what a record holds. -/
structure Tag where
  /-- The word itself. -/
  word : UInt32
deriving DecidableEq, Inhabited

namespace Tag

/-- Announces a function, in both files. -/
def function : Tag := ⟨0x01000000⟩

/-- The blocks of the announced function. -/
def blocks : Tag := ⟨0x01410000⟩

/-- Arcs that leave one block. -/
def arcs : Tag := ⟨0x01430000⟩

/-- Source lines of one block. -/
def lines : Tag := ⟨0x01450000⟩

/-- Execution counts of the announced function. -/
def arcCounts : Tag := ⟨0x01a10000⟩

/-- Statistics over one object file. -/
def objectSummary : Tag := ⟨0xa1000000⟩

/-- Statistics over one program. -/
def programSummary : Tag := ⟨0xa3000000⟩

/-- A tag in a message. -/
def text (t : Tag) : String :=
  Text.wordHex t.word

/-- A tag in diagnostics. -/
def debugText (t : Tag) : String :=
  "Tag(" ++ t.text ++ ")"

/-- The word of a tag in a hexadecimal style. -/
def hex (style : Text.HexStyle) (t : Tag) : String :=
  style.write t.word.toNat

end Tag

/-! ### Versions -/

/-- The format version: four characters, the first one in the highest byte. -/
structure Version where
  /-- The word that holds the characters. -/
  word : UInt32
deriving DecidableEq, Inhabited

namespace Version

/-- The four bytes of a version, first character first. -/
def bytes (v : Version) : List UInt8 :=
  let n := v.word.toNat
  [UInt8.ofNat (n / 0x1000000), UInt8.ofNat (n / 0x10000), UInt8.ofNat (n / 0x100), UInt8.ofNat n]

/-- A byte as a visible character, or a question mark. -/
def visible (b : UInt8) : Char :=
  if 0x21 ≤ b && b ≤ 0x7E then Char.ofNat b.toNat else '?'

/-- The version as text. -/
def text (v : Version) : String :=
  String.ofList (v.bytes.map visible)

/-- A version in diagnostics. -/
def debugText (v : Version) : String :=
  "Version(\"" ++ v.text ++ "\")"

/-- The version with the given text, which must have exactly four bytes in UTF-8. -/
def ofText? (s : String) : Option Version :=
  match s.toUTF8.data.toList with
  | [a, b, c, d] =>
    some ⟨UInt32.ofNat (((a.toNat * 256 + b.toNat) * 256 + c.toNat) * 256 + d.toNat)⟩
  | _ => none

end Version

/-! ### Function identifiers -/

/-- The number of a function, the same in the notes file and in the data file. -/
structure Ident where
  /-- The number itself. -/
  val : UInt32
deriving DecidableEq, Inhabited

namespace Ident

/-- Identifiers are ordered by their numbers. -/
instance : Ord Ident where
  compare a b := compare a.val b.val

theorem compare_def (a b : Ident) : compare a b = compare a.val b.val := rfl

instance : Std.TransOrd Ident where
  eq_swap {a b} := Std.OrientedOrd.eq_swap (a := a.val) (b := b.val)
  isLE_trans {a b c} := Std.TransOrd.isLE_trans (a := a.val) (b := b.val) (c := c.val)

instance : Std.LawfulEqOrd Ident where
  compare_self := Std.ReflOrd.compare_self
  eq_of_compare {a b} h := by
    rw [compare_def, Std.LawfulEqOrd.compare_eq_iff_eq] at h
    cases a; cases b; simp_all

/-- An identifier in a message. -/
def text (i : Ident) : String :=
  Text.decimal i.val.toNat

/-- An identifier in diagnostics. -/
def debugText (i : Ident) : String :=
  "Ident(" ++ i.text ++ ")"

/-- An identifier filled on the left to a least width. -/
def padded (width : Nat) (fill : Char) (i : Ident) : String :=
  Text.padStart width fill i.text

end Ident

/-! ### Block indices -/

/-- The number of a block as a file holds it, which may be out of range. -/
structure BlockIndex where
  /-- The number itself. -/
  val : UInt32
deriving DecidableEq, Inhabited

/-- A block index in diagnostics. -/
def BlockIndex.debugText (i : BlockIndex) : String :=
  "BI(" ++ Text.decimal i.val.toNat ++ ")"

end CoverageFlow
