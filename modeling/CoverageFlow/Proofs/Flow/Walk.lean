import CoverageFlow.Proofs.Flow.Assignment

/-!
# Walks through a network

A walk follows arcs from block to block. It may use an arc and visit a block any number of times.
Whenever it enters a block it also leaves it, except that it starts at its first block and stops at
its last one. So the numbers of visits and traversals balance every side but the incoming one of
the first block and the outgoing one of the last.

## Main definitions

* `Network.IsWalk`: a list of arcs leads from a block to a block.
* `Network.blocksAlong`: the blocks that a walk visits.
* `Network.frequency`: how often a walk visits each block and traverses each arc.

## Main results

* `Network.IsWalk.balancedAt_incoming`, `Network.IsWalk.balancedAt_outgoing`: walks conserve flow
  away from their ends.
-/

namespace CoverageFlow

namespace Network

variable {n m : ℕ} {g : Network n m} {a b z : Fin n} {is : List (Fin m)}

/-- The arcs lead from the first block to the second one, in their order. -/
def IsWalk (g : Network n m) (a : Fin n) : List (Fin m) → Fin n → Prop
  | [], z => a = z
  | i :: is, z => (g.get i).source = a ∧ IsWalk g (g.get i).target is z

instance decidableIsWalk (g : Network n m) :
    (a : Fin n) → (is : List (Fin m)) → (z : Fin n) → Decidable (g.IsWalk a is z)
  | a, [], z => inferInstanceAs (Decidable (a = z))
  | a, i :: is, z =>
    have := decidableIsWalk g (g.get i).target is z
    inferInstanceAs (Decidable ((g.get i).source = a ∧ g.IsWalk (g.get i).target is z))

/-- The blocks on the way along some arcs, beginning with the first block. -/
def blocksAlong (g : Network n m) (a : Fin n) (is : List (Fin m)) : List (Fin n) :=
  a :: is.map fun i => (g.get i).target

/-- How often each block and each arc is on the way. -/
def frequency (g : Network n m) (a : Fin n) (is : List (Fin m)) : Assignment ℕ n m :=
  Sum.elim (fun b => (g.blocksAlong a is).count b) fun i => is.count i

/-- Every block on a walk is the source of the next arc, except for the last block. -/
theorem IsWalk.blocksAlong_eq (h : g.IsWalk a is z) :
    g.blocksAlong a is = is.map (fun i => (g.get i).source) ++ [z] := by
  induction is generalizing a with
  | nil =>
    obtain rfl : a = z := h
    rfl
  | cons i is ih =>
    obtain ⟨rfl, hrest⟩ := h
    exact congrArg (List.cons _) (ih hrest)

/-- Arcs of one kind are traversed as often as an arc of that kind is. -/
theorem sum_count (p : Fin m → Prop) [DecidablePred p] (is : List (Fin m)) :
    ∑ i with p i, is.count i = is.countP (p ·) := by
  induction is with
  | nil => simp
  | cons i is ih =>
    simp only [List.count_cons, List.countP_cons, Finset.sum_add_distrib, ih, beq_iff_eq,
      decide_eq_true_eq, Finset.sum_ite_eq, Finset.mem_filter, Finset.mem_univ, true_and]

/-- A walk enters each block as often as it visits it, except for the block where it starts. -/
theorem balancedAt_incoming_frequency (hb : b ≠ a) :
    (g.frequency a is).BalancedAt g .incoming b := by
  calc (g.blocksAlong a is).count b
      = (is.map fun i => (g.get i).target).count b := List.count_cons_of_ne hb.symm
    _ = is.countP fun i => (g.get i).near .incoming = b := by
      rw [List.count, List.countP_map]
      rfl
    _ = ∑ i ∈ g.side .incoming b, is.count i := (sum_count _ is).symm

/-- A walk leaves each block as often as it visits it, except for the block where it ends. -/
theorem IsWalk.balancedAt_outgoing (h : g.IsWalk a is z) (hb : b ≠ z) :
    (g.frequency a is).BalancedAt g .outgoing b := by
  calc (g.blocksAlong a is).count b
      = (is.map fun i => (g.get i).source).count b := by
        rw [h.blocksAlong_eq, List.count_append, List.count_cons_of_ne hb.symm, List.count_nil,
          Nat.add_zero]
    _ = is.countP fun i => (g.get i).near .outgoing = b := by
      rw [List.count, List.countP_map]
      rfl
    _ = ∑ i ∈ g.side .outgoing b, is.count i := (sum_count _ is).symm

/-- A walk to a block that no arc leaves enters that block with its last arc only. -/
theorem IsWalk.countP_eq (h : g.IsWalk a is z) (hne : a ≠ z) (hz : g.side .outgoing z = ∅)
    (p : Fin m → Bool) : (is.countP fun i => (g.get i).target = z && p i) =
      if is.getLast?.any p then 1 else 0 := by
  induction is generalizing a with
  | nil => exact absurd h hne
  | cons i is ih =>
    obtain ⟨-, hrest⟩ := h
    cases is with
    | nil =>
      have htarget : (g.get i).target = z := hrest
      rw [List.countP_singleton, htarget, decide_eq_true rfl, Bool.true_and]
      rfl
    | cons j js =>
      have htarget : (g.get i).target ≠ z := fun he => by
        have hj : j ∈ g.side .outgoing z := mem_side.2 (hrest.1.trans he)
        rw [hz] at hj
        exact Finset.notMem_empty j hj
      rw [List.countP_cons_of_neg (by simp [htarget]), ih hrest htarget, List.getLast?_cons_cons]

end Network

end CoverageFlow
