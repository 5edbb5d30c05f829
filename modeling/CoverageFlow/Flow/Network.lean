import CoverageFlow.Count
import CoverageFlow.Flow.Index

/-!
# Flow networks

The blocks of a function and the arcs between them form a directed graph in which an arc may
return to the block it leaves, and several arcs may join the same two blocks. Every block and
every arc has a count, known or not.

A block has two sides: the arcs that leave it and the arcs that enter it. Whatever flows through
a block passes both sides, so the arcs of a side that has any add up to the count of the block.

## Main definitions

* `Direction`: outgoing or incoming.
* `Ends`, `Network`: an arc by its two blocks, and a graph as the vector of its arcs.
* `Ends.near`, `Ends.far`: the block on whose side an arc lies, and the block at the other end.
* `Counts`: what is known about the blocks and arcs of a network.
-/

namespace CoverageFlow

variable {n m : Nat}

/-- The two sides of a block. -/
inductive Direction where
  /-- The arcs that leave the block. -/
  | outgoing
  /-- The arcs that enter the block. -/
  | incoming
deriving DecidableEq, Inhabited

/-- The other side. -/
def Direction.opposite : Direction → Direction
  | outgoing => incoming
  | incoming => outgoing

@[simp] theorem Direction.opposite_opposite (d : Direction) : d.opposite.opposite = d := by
  cases d <;> rfl

/-- An arc between two of `n` blocks. -/
structure Ends (n : Nat) where
  source : Fin n
  target : Fin n
deriving DecidableEq

namespace Ends

/-- The block that has an arc on its side `d`. -/
def near (e : Ends n) : Direction → Fin n
  | .outgoing => e.source
  | .incoming => e.target

/-- The block at the other end of an arc on side `d` of its block. -/
def far (e : Ends n) (d : Direction) : Fin n :=
  e.near d.opposite

end Ends

/-- A graph with `n` blocks and `m` arcs. -/
abbrev Network (n m : Nat) : Type := Vector (Ends n) m

/-- The counts of `n` blocks and `m` arcs, as far as they are known. -/
structure Counts (n m : Nat) where
  blocks : Vector (Option Count) n
  arcs : Vector (Option Count) m
deriving DecidableEq

namespace Counts

/-- No count is known. -/
def unknown (n m : Nat) : Counts n m where
  blocks := .replicate n none
  arcs := .replicate m none

/-- The counts after that of a block was found. -/
def setBlock (c : Counts n m) (b : Fin n) (count : Count) : Counts n m :=
  { c with blocks := c.blocks.set b (some count) b.isLt }

/-- The counts after that of an arc was found. -/
def setArc (c : Counts n m) (i : Fin m) (count : Count) : Counts n m :=
  { c with arcs := c.arcs.set i (some count) i.isLt }

/-- The number of blocks whose count is missing. -/
def unknownBlocks (c : Counts n m) : Nat :=
  c.blocks.countP Option.isNone

/-- The number of arcs whose count is missing. -/
def unknownArcs (c : Counts n m) : Nat :=
  c.arcs.countP Option.isNone

@[simp] theorem blocks_setArc (c : Counts n m) (i : Fin m) (count : Count) :
    (c.setArc i count).blocks = c.blocks := rfl

@[simp] theorem arcs_setBlock (c : Counts n m) (b : Fin n) (count : Count) :
    (c.setBlock b count).arcs = c.arcs := rfl

@[simp] theorem unknownArcs_setBlock (c : Counts n m) (b : Fin n) (count : Count) :
    (c.setBlock b count).unknownArcs = c.unknownArcs := rfl

theorem get_arcs_setArc (c : Counts n m) (i j : Fin m) (count : Count) :
    (c.setArc i count).arcs.get j = if i = j then some count else c.arcs.get j :=
  get_set ..

theorem get_blocks_setBlock (c : Counts n m) (b j : Fin n) (count : Count) :
    (c.setBlock b count).blocks.get j = if b = j then some count else c.blocks.get j :=
  get_set ..

theorem unknownArcs_setArc {c : Counts n m} {i : Fin m} (h : c.arcs.get i = none) (count : Count) :
    (c.setArc i count).unknownArcs + 1 = c.unknownArcs := by
  rw [get_eq_getElem] at h
  have hpos : 0 < c.arcs.countP Option.isNone :=
    Vector.countP_pos_iff.2 ⟨_, Vector.getElem_mem i.isLt, by rw [h]; rfl⟩
  simp only [unknownArcs, setArc, Vector.countP_set, h, Option.isNone_none, Option.isNone_some]
  simp only [if_true, Bool.false_eq_true, if_false]
  omega

end Counts

end CoverageFlow
