import CoverageFlow.Flow.Network
import Mathlib

/-!
# Assignments of values to a network

The counts of a network are judged against *assignments*, which give every block and every arc a
value. An assignment conserves flow when the value of a block is the sum of the values on each of
its sides that has arcs.

A block lies on both of its own sides, next to the arcs that leave or enter it. So every element
of a network, block or arc, lies on exactly two sides, one for each direction, and the equation of
a side relates all elements on it.

## Main definitions

* `Element`: a block or an arc, and `Counts.of`, `Counts.set`: the count of an element.
* `Network.side`, `Network.members`: the arcs on a side, and all elements on it.
* `Assignment`, with `Assignment.BalancedAt`, `Assignment.Conserves`: the equations of the sides.
* `Assignment.Extends`, `Assignment.VanishesOn`: how an assignment relates to known counts.

## Main results

* `Assignment.BalancedAt.eq_of_agree`: the equation of a side determines each value on it from the
  others.
-/

namespace CoverageFlow

variable {n m : ℕ}

instance : Fintype Direction where
  elems := {.outgoing, .incoming}
  complete d := by cases d <;> decide

theorem Direction.opposite_ne (d : Direction) : d.opposite ≠ d := by
  cases d <;> exact Direction.noConfusion

theorem Direction.eq_or_eq_opposite (d d' : Direction) : d' = d ∨ d' = d.opposite := by
  cases d <;> cases d' <;> decide

/-- The values of a vector in the order of their indices. -/
theorem toList_eq_map_get {α : Type} (v : Vector α n) : v.toList = (List.finRange n).map v.get := by
  refine List.ext_getElem (by simp) fun k _ _ => ?_
  simp [get_eq_getElem]

/-- Values are counted by their indices. -/
theorem countP_toList_eq_card {α : Type} (v : Vector α n) (p : α → Bool) :
    v.toList.countP p = (Finset.univ.filter fun i => p (v.get i) = true).card := by
  rw [toList_eq_map_get, List.countP_map, List.countP_eq_length_filter]
  exact congrArg List.length (List.filter_congr fun i _ => Bool.decide_eq_true.symm)

/-! ### Elements -/

/-- A block or an arc of a network, whatever has a count. -/
abbrev Element (n m : ℕ) : Type := Fin n ⊕ Fin m

namespace Counts

/-- The count of an element, as far as it is known. -/
def of (c : Counts n m) : Element n m → Option Count
  | .inl b => c.blocks.get b
  | .inr i => c.arcs.get i

/-- The counts after that of an element was found. -/
def set (c : Counts n m) : Element n m → Count → Counts n m
  | .inl b, count => c.setBlock b count
  | .inr i, count => c.setArc i count

@[simp] theorem of_inl (c : Counts n m) (b : Fin n) : c.of (.inl b) = c.blocks.get b := rfl

@[simp] theorem of_inr (c : Counts n m) (i : Fin m) : c.of (.inr i) = c.arcs.get i := rfl

theorem of_set (c : Counts n m) (x y : Element n m) (count : Count) :
    (c.set x count).of y = if x = y then some count else c.of y := by
  rcases x with b | i <;> rcases y with b' | j
  · simp only [set, of, get_blocks_setBlock, Sum.inl.injEq]
  · simp [set, of]
  · simp [set, of]
  · simp only [set, of, get_arcs_setArc, Sum.inr.injEq]

theorem of_set_self (c : Counts n m) (x : Element n m) (count : Count) :
    (c.set x count).of x = some count := by
  rw [of_set, if_pos rfl]

theorem of_set_of_ne (c : Counts n m) {x y : Element n m} (h : y ≠ x) (count : Count) :
    (c.set x count).of y = c.of y := by
  rw [of_set, if_neg h.symm]

/-- The elements whose count is missing. -/
def missing (c : Counts n m) : Finset (Element n m) := {x | c.of x = none}

@[simp] theorem mem_missing {c : Counts n m} {x : Element n m} : x ∈ c.missing ↔ c.of x = none := by
  simp [missing]

theorem of_ne_none {c : Counts n m} (h : c.missing = ∅) (x : Element n m) : c.of x ≠ none := by
  rw [Ne, ← mem_missing, h]
  exact Finset.notMem_empty x

/-- `c'` knows every count that `c` knows. -/
def Extends (c' c : Counts n m) : Prop := ∀ x count, c.of x = some count → c'.of x = some count

theorem Extends.refl (c : Counts n m) : c.Extends c := fun _ _ h => h

theorem Extends.trans {c c' c'' : Counts n m} (h : c''.Extends c') (h' : c'.Extends c) :
    c''.Extends c := fun x count hx => h x count (h' x count hx)

/-- A count that was missing can be added. -/
theorem extends_set {c : Counts n m} {x : Element n m} (hx : c.of x = none) (count : Count) :
    (c.set x count).Extends c := by
  intro y count' hy
  have hne : y ≠ x := by
    rintro rfl
    rw [hx] at hy
    cases hy
  rw [of_set_of_ne c hne, hy]

end Counts

/-! ### Sides -/

namespace Network

variable (g : Network n m) (d : Direction)

/-- The arcs on one side of a block. -/
def side (b : Fin n) : Finset (Fin m) := {i | (g.get i).near d = b}

/-- The block on whose side an element lies; a block lies on its own sides. -/
def anchor : Element n m → Fin n
  | .inl b => b
  | .inr i => (g.get i).near d

/-- The elements on one side of a block: the block itself and the arcs. -/
def members (b : Fin n) : Finset (Element n m) := {x | g.anchor d x = b}

variable {g d} {b : Fin n}

@[simp] theorem mem_side {i : Fin m} : i ∈ g.side d b ↔ (g.get i).near d = b := by
  simp [side]

@[simp] theorem mem_members {x : Element n m} : x ∈ g.members d b ↔ g.anchor d x = b := by
  simp [members]

@[simp] theorem inr_mem_members {i : Fin m} : Sum.inr i ∈ g.members d b ↔ i ∈ g.side d b := by
  rw [mem_members, mem_side]
  rfl

theorem inl_mem_members : Sum.inl b ∈ g.members d b := mem_members.2 rfl

/-- The only block on a side is the one that the side belongs to. -/
theorem eq_of_inl_mem_members {b' : Fin n} (h : Sum.inl b' ∈ g.members d b) : b' = b :=
  mem_members.1 h

end Network

/-! ### Assignments -/

/-- A value for every block and arc of a network. -/
abbrev Assignment (R : Type) (n m : ℕ) : Type := Element n m → R

namespace Assignment

section Monoid

variable {R : Type} [AddCommMonoid R]

/-- The value of a block is the sum of the values on one of its sides. -/
def BalancedAt (φ : Assignment R n m) (g : Network n m) (d : Direction) (b : Fin n) : Prop :=
  φ (.inl b) = ∑ i ∈ g.side d b, φ (.inr i)

/-- The value of every block is the sum of the values on each of its sides that has arcs. -/
def Conserves (φ : Assignment R n m) (g : Network n m) : Prop :=
  ∀ d b, (g.side d b).Nonempty → φ.BalancedAt g d b

instance [DecidableEq R] (φ : Assignment R n m) (g : Network n m) (d : Direction) (b : Fin n) :
    Decidable (φ.BalancedAt g d b) :=
  inferInstanceAs (Decidable (φ (.inl b) = ∑ i ∈ g.side d b, φ (.inr i)))

instance [DecidableEq R] (φ : Assignment R n m) (g : Network n m) : Decidable (φ.Conserves g) :=
  inferInstanceAs (Decidable (∀ d b, (g.side d b).Nonempty → φ.BalancedAt g d b))

theorem zero_balancedAt (g : Network n m) (d : Direction) (b : Fin n) :
    BalancedAt (0 : Assignment R n m) g d b := by
  simp [BalancedAt]

theorem BalancedAt.add {φ ψ : Assignment R n m} {g : Network n m} {d : Direction} {b : Fin n}
    (hφ : φ.BalancedAt g d b) (hψ : ψ.BalancedAt g d b) : (φ + ψ).BalancedAt g d b := by
  rw [BalancedAt] at hφ hψ ⊢
  simp only [Pi.add_apply]
  rw [hφ, hψ, Finset.sum_add_distrib]

/-- Whether a side is balanced depends on its members only. -/
theorem BalancedAt.congr {φ ψ : Assignment R n m} {g : Network n m} {d : Direction} {b : Fin n}
    (hφ : φ.BalancedAt g d b) (h : ∀ x ∈ g.members d b, φ x = ψ x) : ψ.BalancedAt g d b := by
  rw [BalancedAt] at hφ ⊢
  rw [← h _ Network.inl_mem_members, hφ]
  exact Finset.sum_congr rfl fun i hi => h _ (Network.inr_mem_members.2 hi)

theorem Conserves.zero (g : Network n m) : Conserves (0 : Assignment R n m) g :=
  fun d b _ => zero_balancedAt g d b

theorem Conserves.add {φ ψ : Assignment R n m} {g : Network n m} (hφ : φ.Conserves g)
    (hψ : ψ.Conserves g) : (φ + ψ).Conserves g :=
  fun d b harcs => (hφ d b harcs).add (hψ d b harcs)

end Monoid

/-- An arc carries at most what its source does. -/
theorem Conserves.arc_le {φ : Assignment ℕ n m} {g : Network n m} (hφ : φ.Conserves g)
    (i : Fin m) : φ (.inr i) ≤ φ (.inl (g.get i).source) := by
  have hi : i ∈ g.side .outgoing (g.get i).source := Network.mem_side.2 rfl
  rw [hφ .outgoing _ ⟨i, hi⟩]
  exact Finset.single_le_sum (fun j _ => Nat.zero_le (φ (.inr j))) hi

/-- The equation of a side determines each value on it from the others. -/
theorem BalancedAt.eq_of_agree {R : Type} [AddCancelCommMonoid R] {φ ψ : Assignment R n m}
    {g : Network n m} {d : Direction} {b : Fin n} {x : Element n m}
    (hφ : φ.BalancedAt g d b) (hψ : ψ.BalancedAt g d b) (hx : x ∈ g.members d b)
    (h : ∀ y ∈ g.members d b, y ≠ x → φ y = ψ y) : φ x = ψ x := by
  rcases x with b' | i
  · obtain rfl := Network.eq_of_inl_mem_members hx
    rw [BalancedAt] at hφ hψ
    rw [hφ, hψ]
    exact Finset.sum_congr rfl fun i hi => h _ (Network.inr_mem_members.2 hi) Sum.inr_ne_inl
  · have hi := Network.inr_mem_members.1 hx
    have hrest : ∑ j ∈ (g.side d b).erase i, φ (.inr j) = ∑ j ∈ (g.side d b).erase i, ψ (.inr j) :=
      Finset.sum_congr rfl fun j hj => h _
        (Network.inr_mem_members.2 (Finset.mem_of_mem_erase hj))
        (Sum.inr_injective.ne (Finset.ne_of_mem_erase hj))
    have hsum : φ (.inl b) = ψ (.inl b) := h _ Network.inl_mem_members Sum.inl_ne_inr
    rw [hφ, hψ, ← Finset.add_sum_erase _ _ hi, ← Finset.add_sum_erase _ _ hi, hrest] at hsum
    exact add_right_cancel hsum

/-- An assignment of natural numbers has the counts that are known. -/
def Extends (φ : Assignment ℕ n m) (c : Counts n m) : Prop :=
  ∀ x, ∀ count ∈ c.of x, φ x = count.toNat

-- Only the counts that are known are looked at, not all that there could be.
instance (φ : Assignment ℕ n m) (c : Counts n m) : Decidable (φ.Extends c) :=
  decidable_of_iff (∀ x, (c.of x).all (fun count => φ x = count.toNat) = true) <| by
    simp only [Extends, Option.all_eq_true, decide_eq_true_eq, Option.mem_def]

/-- Where no count is missing, the counts that an assignment extends are its values. -/
theorem Extends.of_eq {φ : Assignment ℕ n m} {c : Counts n m} (h : φ.Extends c)
    (hc : c.missing = ∅) (x : Element n m) : (c.of x).map UInt64.toNat = some (φ x) := by
  obtain ⟨count, hcount⟩ := Option.ne_none_iff_exists'.1 (Counts.of_ne_none hc x)
  rw [hcount, h x count hcount]
  rfl

/-- An assignment of integers is zero wherever a count is known. -/
def VanishesOn (δ : Assignment ℤ n m) (c : Counts n m) : Prop := ∀ x, c.of x ≠ none → δ x = 0

end Assignment

end CoverageFlow
