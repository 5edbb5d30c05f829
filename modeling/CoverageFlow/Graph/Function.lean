import CoverageFlow.Flow.Network
import CoverageFlow.Graph.Attribute
import CoverageFlow.Graph.LineMap

/-!
# Function graphs

The flow graph of a function: its blocks, the arcs between them, and the counts of both as far as
they are known. The first block is the entry and the last one the exit.

## Main definitions

* `Block`, `Arc`: a block with its lines, an arc with its ends.
* `FunctionGraph`: the graph of a function.
* `FunctionGraph.instrumented`: the arcs that are counted at run time.
* `FunctionGraph.arcsLeaving`, `FunctionGraph.arcsEntering`: the arcs on one side of a block.
* `FunctionGraph.block?`, `FunctionGraph.arcsAt`: a block and its arcs by number.
* `FunctionGraph.complexity`: the cyclomatic complexity.
* `FunctionGraph.compareByLine`: the order of functions inside a file.
-/

namespace CoverageFlow

/-- A block of a function. -/
structure Block where
  /-- The flags that the notes file states. -/
  flags : UInt32
  attr : BlockAttributes
  lines : LineMap
deriving Inhabited

/-- An arc between two of `n` blocks. -/
structure Arc (n : Nat) extends Ends n where
  attr : ArcAttributes
deriving DecidableEq

/-- Statistics of a function whose counts are complete. -/
structure CallStatistics where
  /-- How often the function was called. -/
  called : Nat
  /-- How often it returned normally. -/
  returned : Nat
  /-- How many blocks were executed at least once, entry and exit apart. -/
  executedBlocks : Nat
deriving DecidableEq, Inhabited

/-- The flow graph of a function. -/
structure FunctionGraph extends Announcement Symbol where
  /-- The number of blocks. -/
  size : Nat
  /-- The number of arcs. -/
  numArcs : Nat
  /-- Entry and exit are two blocks. -/
  two_le : 2 ≤ size
  blocks : Vector Block size
  /-- The arcs in the order of the notes file. -/
  arcs : Vector (Arc size) numArcs
  counts : Counts size numArcs
  /-- Whether counts of a data file were written, even if the others could not be completed. -/
  merged : Bool
  /-- The statistics, once the counts are complete. -/
  statistics : Option CallStatistics

namespace FunctionGraph

/-- The block where a call begins. -/
def entry (f : FunctionGraph) : Fin f.size :=
  ⟨0, Nat.lt_of_lt_of_le Nat.two_pos f.two_le⟩

/-- The block where a call ends. -/
def exit (f : FunctionGraph) : Fin f.size :=
  ⟨f.size - 1, Nat.sub_one_lt_of_lt f.entry.isLt⟩

/-- The blocks and arcs without their attributes. -/
def network (f : FunctionGraph) : Network f.size f.numArcs :=
  f.arcs.map Arc.toEnds

/-- The arcs that are counted at run time, in the order of the notes file. -/
def instrumented (f : FunctionGraph) : List (Fin f.numArcs) :=
  (List.finRange f.numArcs).filter fun i => !(f.arcs.get i).attr.onTree

/-- The number of blocks, entry and exit apart. -/
def innerBlockCount (f : FunctionGraph) : Nat :=
  f.size - 2

/-- Whether the counts are complete. -/
def isComplete (f : FunctionGraph) : Bool :=
  f.statistics.isSome

/-! ### Arcs of a block -/

/-- The arcs on one side of a block, ordered by the block at their other end; arcs between the
same two blocks come in reverse order of the notes file. -/
def arcsOn (f : FunctionGraph) (d : Direction) (block : Fin f.size) : List (Fin f.numArcs) :=
  ((List.finRange f.numArcs).reverse.filter fun i => (f.arcs.get i).near d = block).mergeSort
    fun i j => ((f.arcs.get i).far d).val ≤ ((f.arcs.get j).far d).val

/-- The arcs that leave a block, ordered by their targets. -/
def arcsLeaving (f : FunctionGraph) (block : Fin f.size) : List (Fin f.numArcs) :=
  f.arcsOn .outgoing block

/-- The arcs that enter a block, ordered by their sources. -/
def arcsEntering (f : FunctionGraph) (block : Fin f.size) : List (Fin f.numArcs) :=
  f.arcsOn .incoming block

/-- All arcs, block by block. -/
def arcsInOrder (f : FunctionGraph) : List (Fin f.numArcs) :=
  (List.finRange f.size).flatMap f.arcsLeaving

/-! ### Blocks by number -/

/-- The block with a number. Blocks are numbered by words of 32 bits, so of a larger number only
the low 32 bits count. -/
def block? (f : FunctionGraph) (number : Nat) : Option (Fin f.size) :=
  let index := number % UInt32.size
  if h : index < f.size then some ⟨index, h⟩ else none

/-- The arcs on one side of the block with a number; there are none if there is no such block. -/
def arcsAt (f : FunctionGraph) (d : Direction) (number : Nat) : List (Fin f.numArcs) :=
  match f.block? number with
  | some block => f.arcsOn d block
  | none => []

/-! ### Complexity -/

/-- The cyclomatic complexity, counting every arc. -/
def fullComplexity (f : FunctionGraph) : Int :=
  (f.numArcs : Int) - f.size + 2

/-- The number of fake arcs into the exit. -/
def fakeExits (f : FunctionGraph) : Nat :=
  f.arcs.countP fun a => a.attr.fake && a.target = f.exit

/-- The cyclomatic complexity, without the fake arcs into the exit. -/
def complexity (f : FunctionGraph) : Int :=
  f.fullComplexity - f.fakeExits

/-! ### Order -/

/-- The order of functions inside a file: by the line of their declaration, then by name. -/
def compareByLine (f g : FunctionGraph) : Ordering :=
  (compare f.line g.line).then (compare f.name g.name)

end FunctionGraph

end CoverageFlow
