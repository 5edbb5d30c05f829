import CoverageFlow.Flow.Queue
import CoverageFlow.Flow.Side

/-!
# Completing the counts of a network

Only some arcs of a function are counted while it runs. The other counts follow from two rules:

* a block takes its count from a side of which every arc is known, the outgoing one first;
* when the count of a block is known and exactly one arc of a side is not, that arc carries the
  difference.

Blocks without a count wait in one queue, blocks whose count may determine an arc in another. The
solver serves the second queue until it is empty, then goes through the first queue once, and so
on. Every count found uses up one of the missing ones, so this ends.

A count that would be negative or too large shows that the given counts do not belong to the
network. Counts that were found before that stay.

## Main definitions

* `Obstacle`: why the counts were not completed.
* `Solver`: the state of the solver, and `Solver.start`: its first state.
* `Solver.step`, `Solver.run`: one round, and all rounds.
* `Network.complete`: completes the counts of a network.
-/

namespace CoverageFlow

variable {n m : Nat}

/-- Why the counts of a network were not completed. -/
inductive Obstacle (n : Nat) where
  /-- A count on a side of this block would be negative or too large. -/
  | inconsistent (block : Fin n)
  /-- The known counts leave this many others open. -/
  | undetermined (remaining : Nat)
deriving DecidableEq

/-- The state of the solver. -/
structure Solver (n m : Nat) where
  counts : Counts n m
  sides : Sides n
  /-- The blocks without a count. -/
  pending : MarkedQueue n
  /-- The blocks with a count that may determine one of their arcs. -/
  ready : MarkedQueue n

namespace Solver

/-! ### The first state -/

/-- Queues a block according to its count. -/
def enqueue (s : Solver n m) (b : Fin n) : Solver n m :=
  if (s.counts.blocks.get b).isSome then { s with ready := s.ready.push b }
  else { s with pending := s.pending.push b }

/-- The first state, with every block queued in order; it does not exist if a side adds up to no
count, and then the block of that side is named. -/
def start (g : Network n m) (counts : Counts n m) : Except (Fin n) (Solver n m) := do
  let sides ← Sides.ofArcs g counts.arcs
  return (List.finRange n).foldl enqueue { counts, sides, pending := .empty, ready := .empty }

/-! ### From a block to an arc -/

/-- The first arc on a side whose count is missing. -/
def missingArc? (g : Network n m) (s : Solver n m) (b : Fin n) (d : Direction) : Option (Fin m) :=
  (List.finRange m).find? fun i => (g.get i).near d = b && (s.counts.arcs.get i).isNone

/-- Lets a block wait whose side has changed. -/
def notify (s : Solver n m) (b : Fin n) (d : Direction) : Solver n m :=
  if (s.counts.blocks.get b).isNone then { s with pending := s.pending.push b }
  else if (s.sides.side d b).unknown = 1 then { s with ready := s.ready.push b }
  else s

/-- Writes the count of an arc, which lies on side `d` of the block that determines it. -/
def assign (g : Network n m) (i : Fin m) (d : Direction) (count : Count) :
    EStateM (Fin n) (Solver n m) Unit := fun s =>
  let s := { s with counts := s.counts.setArc i count }
  match s.sides.settleArc (g.get i) d count with
  | .ok sides => .ok () (notify { s with sides := sides } ((g.get i).far d) d.opposite)
  | .error b => .error b s

/-- Determines the one arc on a side whose count is missing, if the count of the block is
known. -/
def completeSide (g : Network n m) (b : Fin n) (d : Direction) :
    EStateM (Fin n) (Solver n m) Unit := fun s =>
  match s.counts.blocks.get b with
  | none => .ok () s
  | some count =>
    if (s.sides.side d b).unknown = 1 then
      match missingArc? g s b d with
      | none => .ok () s
      | some i =>
        match Count.sub? count (s.sides.side d b).total with
        | none => .error b s
        | some rest => assign g i d rest s
    else .ok () s

/-- Determines what a block with a known count determines. -/
def serve (g : Network n m) (b : Fin n) : EStateM (Fin n) (Solver n m) Unit := do
  completeSide g b .outgoing
  completeSide g b .incoming

/-! ### From arcs to a block -/

/-- The count of a block that one of its sides implies. -/
def implied? (s : Solver n m) (b : Fin n) : Option Count :=
  (s.sides.side .outgoing b).implied? <|> (s.sides.side .incoming b).implied?

/-- Takes up a block without a count: it gets the count that a side implies, or waits again. -/
def examine (s : Solver n m) (b : Fin n) : Solver n m :=
  match s.implied? b with
  | some count => { s with counts := s.counts.setBlock b count, ready := s.ready.push b }
  | none => { s with pending := s.pending.push b }

/-- Takes up all blocks without a count in their order. -/
def sweep (s : Solver n m) : Solver n m :=
  s.pending.toList.foldl examine { s with pending := .empty }

/-! ### Rounds -/

/-- What one round leads to. -/
inductive Next (n m : Nat) where
  /-- A block with a count was served. -/
  | served (s : Solver n m)
  /-- Every block without a count was taken up, and some got one. -/
  | swept (s : Solver n m)
  /-- Every block has a count, and none determines a further arc. -/
  | settled
  /-- No block without a count got one. -/
  | stalled (s : Solver n m)
  /-- A count on a side of a block would be negative or too large. -/
  | clash (block : Fin n) (s : Solver n m)

/-- One round: a block that waits with its count is served; if there is none, all blocks that wait
for their count are taken up. -/
def step (g : Network n m) (s : Solver n m) : Next n m :=
  match s.ready.pop? with
  | some (b, ready) =>
    match serve g b { s with ready := ready } with
    | .ok () s' => .served s'
    | .error b s' => .clash b s'
  | none =>
    if s.pending.size = 0 then .settled
    else
      let s' := sweep s
      if s'.pending.size < s.pending.size then .swept s' else .stalled s'

/-- A bound on the number of rounds to come. -/
def potential (s : Solver n m) : Nat :=
  3 * s.counts.unknownArcs + 2 * s.pending.size + s.ready.size

theorem potential_notify_le (s : Solver n m) (b : Fin n) (d : Direction) :
    (notify s b d).potential ≤ s.potential + 2 := by
  have hp := s.pending.size_push_le b
  have hr := s.ready.size_push_le b
  unfold notify potential
  split
  · dsimp only; omega
  · split
    · dsimp only; omega
    · omega

theorem missingArc?_isNone {g : Network n m} {s : Solver n m} {b : Fin n} {d : Direction}
    {i : Fin m} (h : missingArc? g s b d = some i) : s.counts.arcs.get i = none := by
  have := List.find?_some h
  simp only [Bool.and_eq_true, Option.isNone_iff_eq_none] at this
  exact this.2

theorem potential_assign_lt {g : Network n m} {i : Fin m} {d : Direction} {count : Count}
    {s s' : Solver n m} (hi : s.counts.arcs.get i = none) (h : assign g i d count s = .ok () s') :
    s'.potential < s.potential := by
  unfold assign at h
  dsimp only at h
  split at h
  · next sides _ =>
    cases h
    have hn := potential_notify_le
      { s with counts := s.counts.setArc i count, sides := sides } ((g.get i).far d) d.opposite
    have hu := Counts.unknownArcs_setArc hi count
    have : Solver.potential { s with counts := s.counts.setArc i count, sides := sides } + 3
        = s.potential := by
      simp only [potential]
      omega
    omega
  · cases h

theorem potential_completeSide_le {g : Network n m} {b : Fin n} {d : Direction} {s s' : Solver n m}
    (h : completeSide g b d s = .ok () s') : s'.potential ≤ s.potential := by
  unfold completeSide at h
  split at h
  · cases h; exact Nat.le_refl _
  split at h
  · split at h
    · cases h; exact Nat.le_refl _
    · next hm =>
      split at h
      · cases h
      · exact Nat.le_of_lt (potential_assign_lt (missingArc?_isNone hm) h)
  · cases h; exact Nat.le_refl _

theorem potential_serve_le {g : Network n m} {b : Fin n} {s s' : Solver n m}
    (h : serve g b s = .ok () s') : s'.potential ≤ s.potential := by
  simp only [serve, bind, EStateM.bind] at h
  split at h
  · next h₁ => exact Nat.le_trans (potential_completeSide_le h) (potential_completeSide_le h₁)
  · cases h

theorem examine_le (s : Solver n m) (b : Fin n) :
    (examine s b).counts.unknownArcs = s.counts.unknownArcs ∧
      (examine s b).pending.size + (examine s b).ready.size ≤
        s.pending.size + s.ready.size + 1 := by
  have hp := s.pending.size_push_le b
  have hr := s.ready.size_push_le b
  unfold examine
  split <;> dsimp only
  · exact ⟨Counts.unknownArcs_setBlock .., by omega⟩
  · exact ⟨rfl, by omega⟩

theorem foldl_examine_le (bs : List (Fin n)) (s : Solver n m) :
    (bs.foldl examine s).counts.unknownArcs = s.counts.unknownArcs ∧
      (bs.foldl examine s).pending.size + (bs.foldl examine s).ready.size ≤
        s.pending.size + s.ready.size + bs.length := by
  induction bs generalizing s with
  | nil => exact ⟨rfl, Nat.le_refl _⟩
  | cons b bs ih =>
    have he := examine_le s b
    have hs := ih (examine s b)
    refine ⟨hs.1.trans he.1, ?_⟩
    simp only [List.foldl_cons, List.length_cons]
    omega

theorem sweep_le (s : Solver n m) :
    (sweep s).counts.unknownArcs = s.counts.unknownArcs ∧
      (sweep s).pending.size + (sweep s).ready.size ≤ s.pending.size + s.ready.size := by
  have h := foldl_examine_le s.pending.toList { s with pending := .empty }
  rw [MarkedQueue.length_toList] at h
  refine ⟨h.1, Nat.le_trans h.2 ?_⟩
  simp only [MarkedQueue.size_empty]
  omega

theorem potential_of_served {g : Network n m} {s s' : Solver n m}
    (h : step g s = .served s') : s'.potential < s.potential := by
  unfold step at h
  split at h
  · next b ready hp =>
    split at h
    · next hs =>
      cases h
      have := potential_serve_le hs
      have := MarkedQueue.size_of_pop? hp
      simp only [potential] at *
      omega
    · cases h
  · split at h
    · cases h
    · dsimp only at h
      split at h <;> cases h

theorem potential_of_swept {g : Network n m} {s s' : Solver n m}
    (h : step g s = .swept s') : s'.potential < s.potential := by
  unfold step at h
  split at h
  · split at h <;> cases h
  · split at h
    · cases h
    · dsimp only at h
      split at h
      · cases h
        have := sweep_le s
        simp only [potential]
        omega
      · cases h

/-- Runs the solver to its end. -/
def run (g : Network n m) (s : Solver n m) : EStateM.Result (Obstacle n) (Counts n m) Unit :=
  match _h : step g s with
  | .served s' => run g s'
  | .swept s' => run g s'
  | .settled => .ok () s.counts
  | .stalled s' => .error (.undetermined s'.pending.size) s'.counts
  | .clash b s' => .error (.inconsistent b) s'.counts
termination_by s.potential
decreasing_by
  · exact potential_of_served ‹_›
  · exact potential_of_swept ‹_›

end Solver

/-- Completes the counts of a network. Known counts never change; if every block gets a count but
arcs between them stay open, the known counts do not determine the others either. -/
def Network.complete (g : Network n m) : EStateM (Obstacle n) (Counts n m) Unit := fun counts =>
  match Solver.start g counts with
  | .error b => .error (.inconsistent b) counts
  | .ok s =>
    match s.run g with
    | .error e counts => .error e counts
    | .ok () counts =>
      let remaining := counts.unknownBlocks + counts.unknownArcs
      if remaining = 0 then .ok () counts else .error (.undetermined remaining) counts

end CoverageFlow
