import CoverageFlow.Text.Numeral

/-!
# Faults of a JSON text

Why a text is not JSON is told by a sentence and by the line and the column where reading stopped.
Lines are numbered from one; a fault on line zero has no place, and only its sentence is told.

A message that ends with a place, `… at line 3 column 7`, is taken apart again: what stands before
the ending is the sentence. Both numbers are decimal numerals of 64 bits without a sign. A message
that does not end in this way is all sentence.

## Main definitions

* `JsonFault`: the sentence and the place, with its `message`.
* `JsonFault.ofMessage`: the fault that a message tells.
-/

namespace CoverageFlow

/-- Why and where a text is not JSON. -/
structure JsonFault where
  /-- What is wrong. -/
  sentence : String
  /-- The line, numbered from one; zero if the place is unknown. -/
  line : Nat
  column : Nat
deriving DecidableEq

namespace JsonFault

/-- The text of a fault, with its place if that is known. -/
def message (fault : JsonFault) : String :=
  if fault.line = 0 then fault.sentence
  else
    fault.sentence ++ " at line " ++ Text.decimal fault.line ++ " column " ++
      Text.decimal fault.column

/-- The numeral that ends a text, taken off after `mark`: the text before the mark and the value of
the numeral. -/
def splitNumeral? (mark : String) (text : List Char) : Option (List Char × Nat) := do
  let before := (text.reverse.dropWhile Char.isDigit).reverse
  let value ← Text.value64? (text.reverse.takeWhile Char.isDigit).reverse
  let sentence ← mark.toList.isSuffixOf? before
  return (sentence, value)

/-- The sentence and the place of a message that ends with a place. -/
def splitPlace? (text : String) : Option JsonFault := do
  let (before, column) ← splitNumeral? " column " text.toList
  let (sentence, line) ← splitNumeral? " at line " before
  return { sentence := String.ofList sentence, line, column }

/-- The fault that a message tells. -/
def ofMessage (text : String) : JsonFault :=
  (splitPlace? text).getD { sentence := text, line := 0, column := 0 }

example : (ofMessage "colon expected at line 3 column 07").message =
    "colon expected at line 3 column 7" := by
  decide +kernel

example : (ofMessage "colon expected at line 0 column 7").message = "colon expected" := by
  decide +kernel

example : (ofMessage "colon expected at line 3 column +7").line = 0 := by decide +kernel

end JsonFault

end CoverageFlow
