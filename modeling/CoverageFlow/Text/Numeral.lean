/-!
# Numerals

Decimal and hexadecimal numerals of natural numbers, with lower-case digits, and their padding
to a least width.

## Main definitions

* `decimal`, `hexadecimal`: the numeral without leading zeros; zero is `0`.
* `value64?`: the number of decimal digits.
* `padStart`: a text made at least `width` characters wide on the left.
* `HexStyle`, `HexStyle.write`: hexadecimal numerals with an optional `0x` mark and zero padding.
-/

namespace CoverageFlow.Text

/-- The decimal numeral of a number. -/
def decimal (n : Nat) : String :=
  String.ofList (Nat.toDigits 10 n)

/-- The decimal numeral of an integer, with a minus sign when it is negative. -/
def signedDecimal (n : Int) : String :=
  if n < 0 then "-" ++ decimal n.natAbs else decimal n.natAbs

/-- The value of decimal digits, of which there is at least one, if it fits in 64 bits. -/
def value64? (digits : List Char) : Option Nat :=
  let value := Nat.ofDigitChars 10 digits 0
  if digits ≠ [] ∧ value < UInt64.size then some value else none

/-- The hexadecimal numeral of a number. -/
def hexadecimal (n : Nat) : String :=
  String.ofList (Nat.toDigits 16 n)

/-- Fills a text on the left until it has `width` characters. -/
def padStart (width : Nat) (fill : Char) (text : String) : String :=
  String.ofList (List.replicate (width - text.length) fill) ++ text

/-- How a hexadecimal numeral is written: with or without the mark `0x`, and with zeros up to a
least width that includes the mark. -/
structure HexStyle where
  /-- The numeral starts with `0x`. -/
  marked : Bool
  /-- The least number of characters, mark included. -/
  width : Nat
deriving DecidableEq

/-- Writes a number in a hexadecimal style. -/
def HexStyle.write (style : HexStyle) (n : Nat) : String :=
  if style.marked then "0x" ++ padStart (style.width - 2) '0' (hexadecimal n)
  else padStart style.width '0' (hexadecimal n)

/-- A 32-bit word in full: `0x` and eight digits. -/
def wordHex (n : UInt32) : String :=
  HexStyle.write ⟨true, 10⟩ n.toNat

example : wordHex 0x1410000 = "0x01410000" := by decide +kernel

theorem value64?_toDigits {n : Nat} (h : n < UInt64.size) :
    value64? (Nat.toDigits 10 n) = some n := by
  rw [value64?, Nat.ofDigitChars_toDigits (by decide) (by decide), if_pos]
  exact ⟨Nat.toDigits_ne_nil, h⟩

example : padStart 4 ' ' (decimal 17) = "  17" := by decide +kernel

end CoverageFlow.Text
