import CoverageFlow.Graph.Function
import CoverageFlow.Text.Numeral

/-!
# Diagrams

The flow graph of a function as a text in the DOT language. A block is a small table with its
count, its number and its lines. The colour of a count tells whether it is zero, positive or
unknown; the style of an arc tells whether it is fake or a fall-through.

## Main definitions

* `FunctionGraph.diagram`: the text.
-/

namespace CoverageFlow

namespace FunctionGraph

/-- The colour and the text of a count. -/
def countLabel : Option Count → String × String
  | some count => (if count = 0 then "red" else "darkgreen", Text.decimal count.toNat)
  | none => ("gray", "?")

/-- A name between double quotes; a quote inside it is preceded by a backslash. -/
def quotedName (name : String) : String :=
  "\"" ++ String.join (name.toList.map fun c => if c = '"' then "\\\"" else c.toString) ++ "\""

/-- What a block covers: entry and exit are named, another block lists its lines. -/
def linesLabel (f : FunctionGraph) (b : Fin f.size) : String :=
  if b = f.entry then "ENTRY"
  else if b = f.exit then "EXIT"
  else
    match (f.blocks.get b).lines.pairs with
    | [] => "?"
    | pairs => "#" ++ ",".intercalate (pairs.map fun pair => Text.decimal pair.2.toNat)

/-- The line of a block. -/
def blockLine (f : FunctionGraph) (b : Fin f.size) : String :=
  let (color, label) := countLabel (f.counts.blocks.get b)
  let number := Text.decimal b
  "\t" ++ number ++ " [label=<<table cellspacing=\"0\"><tr><td rowspan=\"2\"><font color=\"" ++
    color ++ "\">" ++ label ++ "</font></td><td><font point-size=\"9\">@" ++ number ++
    "</font></td></tr><tr><td><font point-size=\"9\">" ++ f.linesLabel b ++
    "</font></td></tr></table>>]\n"

/-- The style, colour and weight of an arc. -/
def arcStyle (attr : ArcAttributes) : String × String × Nat :=
  if attr.fake then ("dotted", "green", 0)
  else if attr.fallThrough then ("solid", "blue", 100)
  else ("solid", "black", 10)

/-- The line of an arc. -/
def arcLine (f : FunctionGraph) (i : Fin f.numArcs) : String :=
  let arc := f.arcs.get i
  let (fontColor, label) := countLabel (f.counts.arcs.get i)
  let (style, color, weight) := arcStyle arc.attr
  "\t" ++ Text.decimal arc.source ++ " -> " ++ Text.decimal arc.target ++ " [style=" ++ style ++
    ", color=" ++ color ++ ", weight=" ++ Text.decimal weight ++ ", constraint=" ++
    (if arc.attr.fake then "false" else "true") ++ ", fontcolor=\"" ++ fontColor ++
    "\", label=<" ++ label ++ "<font point-size=\"9\">(" ++
    (Text.HexStyle.mk false 2).write arc.attr.bits ++ "h)</font>>]\n"

/-- The lines of the diagram between its first and its last one: blocks in their order, then arcs
in the order of the notes file. -/
def diagramLines (f : FunctionGraph) : List String :=
  (List.finRange f.size).map f.blockLine ++ (List.finRange f.numArcs).map f.arcLine

/-- The diagram of a function. -/
def diagram (f : FunctionGraph) : String :=
  "digraph " ++ quotedName f.name ++ " \x7b\n\tnode[shape=plain]\n" ++
    String.join f.diagramLines ++ "\x7d\n"

end FunctionGraph

end CoverageFlow
