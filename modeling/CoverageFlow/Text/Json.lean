import CoverageFlow.Text.Numeral

/-!
# JSON text

JSON values whose objects keep their fields in order, and their two written forms: compact, with
no space at all, and pretty, with one item a line and an indent of two spaces a level.

Inside a string the quote, the backslash and the control characters are escaped, the common
control characters by a letter and the others by four hexadecimal digits; every other character
stands for itself.

## Main definitions

* `Json`: a JSON value.
* `Json.quote`: a string as a JSON literal.
* `Json.compact`, `Json.pretty`: the two written forms.
-/

namespace CoverageFlow

/-- A JSON value; numbers are integers, and an object is the list of its fields. -/
inductive Json where
  | null
  | bool (value : Bool)
  | num (value : Int)
  | str (value : String)
  | arr (items : List Json)
  | obj (fields : List (String × Json))
deriving Inhabited

namespace Json

/-- The JSON number of a natural number. -/
def nat (n : Nat) : Json :=
  .num n

/-- A value that may be absent. -/
def option {α : Type} (write : α → Json) : Option α → Json
  | some a => write a
  | none => .null

/-- A list of values. -/
def list {α : Type} (write : α → Json) (items : List α) : Json :=
  .arr (items.map write)

/-! ### Strings -/

/-- How a character is written inside a string literal. -/
def escape (c : Char) : String :=
  if c = '"' then "\\\""
  else if c = '\\' then "\\\\"
  else if c = '\n' then "\\n"
  else if c = '\r' then "\\r"
  else if c = '\t' then "\\t"
  else if c = '\x08' then "\\b"
  else if c = '\x0c' then "\\f"
  else if c.toNat < 0x20 then "\\u" ++ Text.padStart 4 '0' (Text.hexadecimal c.toNat)
  else c.toString

/-- A string as a literal, with its quotes. -/
def quote (s : String) : String :=
  "\"" ++ String.join (s.toList.map escape) ++ "\""

/-! ### Compact form -/

mutual

/-- The text of a value with no space in it. -/
def compact : Json → String
  | .null => "null"
  | .bool true => "true"
  | .bool false => "false"
  | .num n => Text.signedDecimal n
  | .str s => quote s
  | .arr items => "[" ++ ",".intercalate (compactItems items) ++ "]"
  | .obj fields => "\x7b" ++ ",".intercalate (compactFields fields) ++ "\x7d"

/-- The texts of the items of a list. -/
def compactItems : List Json → List String
  | [] => []
  | item :: items => compact item :: compactItems items

/-- The texts of the fields of an object. -/
def compactFields : List (String × Json) → List String
  | [] => []
  | (key, value) :: fields => (quote key ++ ":" ++ compact value) :: compactFields fields

end

/-! ### Pretty form -/

/-- A new line indented by `level` levels. -/
def newline (level : Nat) : String :=
  "\n" ++ String.ofList (List.replicate (2 * level) ' ')

/-- Items between brackets, one a line at `level + 1`; nothing between them if there is none. -/
def block (left right : String) (level : Nat) (items : List String) : String :=
  match items with
  | [] => left ++ right
  | _ =>
    left ++ newline (level + 1) ++ ("," ++ newline (level + 1)).intercalate items ++
      newline level ++ right

mutual

/-- The pretty text of a value that stands at `level`. -/
def prettyAt (level : Nat) : Json → String
  | .arr items => block "[" "]" level (prettyItems (level + 1) items)
  | .obj fields => block "\x7b" "\x7d" level (prettyFields (level + 1) fields)
  | .null => "null"
  | .bool true => "true"
  | .bool false => "false"
  | .num n => Text.signedDecimal n
  | .str s => quote s

/-- The pretty texts of the items of a list. -/
def prettyItems (level : Nat) : List Json → List String
  | [] => []
  | item :: items => prettyAt level item :: prettyItems level items

/-- The pretty texts of the fields of an object. -/
def prettyFields (level : Nat) : List (String × Json) → List String
  | [] => []
  | (key, value) :: fields =>
    (quote key ++ ": " ++ prettyAt level value) :: prettyFields level fields

end

/-- The text of a value with one item a line. -/
def pretty (value : Json) : String :=
  prettyAt 0 value

end Json

end CoverageFlow
