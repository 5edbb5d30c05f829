import CoverageFlow.Flow.Network

/-!
# Sides of blocks

For each side of each block the solver keeps the number of arcs, the number of arcs whose count
is missing, and the sum of the other counts. A sum that is no count is refused, and the block is
named.

## Main definitions

* `Side`: the tally of one side of a block.
* `Side.implied?`: the count of the block, if every arc of a side that has any is known.
* `Sides`: the tallies of all sides, and `Sides.ofArcs`: those of a network.
-/

namespace CoverageFlow

variable {n m : Nat}

/-- The tally of one side of a block. -/
structure Side where
  /-- The number of arcs. -/
  arcs : Nat
  /-- The number of arcs whose count is missing. -/
  unknown : Nat
  /-- The sum of the counts that are known. -/
  total : Count
deriving DecidableEq, Inhabited

namespace Side

/-- A side without arcs. -/
def empty : Side := ⟨0, 0, 0⟩

/-- The count of the block that this side implies. -/
def implied? (s : Side) : Option Count :=
  if 0 < s.arcs ∧ s.unknown = 0 then some s.total else none

/-- The side with one more arc, unless the sum becomes too large. -/
def add? (s : Side) : Option Count → Option Side
  | none => some { s with arcs := s.arcs + 1, unknown := s.unknown + 1 }
  | some count =>
    (Count.add? s.total count).map fun total => { s with arcs := s.arcs + 1, total := total }

/-- The side after a missing count was found, unless the sum becomes too large. -/
def settle? (s : Side) (count : Count) : Option Side :=
  (Count.add? s.total count).map fun total =>
    { s with unknown := s.unknown - 1, total := total }

end Side

/-- The tallies of both sides of `n` blocks. -/
structure Sides (n : Nat) where
  outgoing : Vector Side n
  incoming : Vector Side n
deriving DecidableEq

namespace Sides

/-- The tallies before any arc was seen. -/
def empty : Sides n where
  outgoing := .replicate n .empty
  incoming := .replicate n .empty

/-- The tally of one side. -/
def side (s : Sides n) (d : Direction) (b : Fin n) : Side :=
  match d with
  | .outgoing => s.outgoing.get b
  | .incoming => s.incoming.get b

/-- The tallies after one of them changed. -/
def set (s : Sides n) (d : Direction) (b : Fin n) (new : Side) : Sides n :=
  match d with
  | .outgoing => { s with outgoing := s.outgoing.set b new b.isLt }
  | .incoming => { s with incoming := s.incoming.set b new b.isLt }

theorem side_set (s : Sides n) (d d' : Direction) (b b' : Fin n) (new : Side) :
    (s.set d b new).side d' b' = if d = d' ∧ b = b' then new else s.side d' b' := by
  cases d <;> cases d' <;> simp [set, side, get_set]

/-- Changes one tally; where that fails, its block is named. -/
def update (s : Sides n) (d : Direction) (b : Fin n) (change : Side → Option Side) :
    Except (Fin n) (Sides n) :=
  match change (s.side d b) with
  | some new => .ok (s.set d b new)
  | none => .error b

/-- Adds an arc to the outgoing side of its source and to the incoming side of its target. -/
def adjoin (s : Sides n) (arc : Ends n × Option Count) : Except (Fin n) (Sides n) := do
  let s ← s.update .outgoing arc.1.source (·.add? arc.2)
  s.update .incoming arc.1.target (·.add? arc.2)

/-- The tallies of a network whose arcs have the given counts. -/
def ofArcs (g : Network n m) (counts : Vector (Option Count) m) : Except (Fin n) (Sides n) :=
  (g.toList.zip counts.toList).foldlM adjoin empty

/-- Finds the count of an arc on side `d`: first on that side, then on the side at its other
end. -/
def settleArc (s : Sides n) (arc : Ends n) (d : Direction) (count : Count) :
    Except (Fin n) (Sides n) := do
  let s ← s.update d (arc.near d) (·.settle? count)
  s.update d.opposite (arc.far d) (·.settle? count)

end Sides

end CoverageFlow
