/-!
# Execution counts

How often a block or an arc was executed is a 64-bit number. Sums and differences of counts
are taken in the natural numbers and refused when they leave the 64-bit range, so no operation
of this library wraps around.

## Main definitions

* `Count`: a 64-bit count, with its largest value `Count.max`.
* `Count.add?`, `Count.sub?`: exact sum and difference, `none` when there is none.
* `Count.addClamped`: the sum, or the largest count if the sum exceeds it.
-/

namespace CoverageFlow

/-- How often something was executed. -/
abbrev Count := UInt64

namespace Count

/-- The largest count. -/
def max : Count := 0xFFFFFFFFFFFFFFFF

/-- The exact sum of two counts, if it is a count. -/
def add? (a b : Count) : Option Count :=
  if a.toNat + b.toNat < UInt64.size then some (a + b) else none

/-- The exact difference of two counts, if it is not negative. -/
def sub? (a b : Count) : Option Count :=
  if b.toNat ≤ a.toNat then some (a - b) else none

/-- The sum of two counts, cut off at the largest count. -/
def addClamped (a b : Count) : Count :=
  (add? a b).getD max

@[simp] theorem toNat_max : max.toNat = UInt64.size - 1 := rfl

theorem add?_eq_some_iff {a b c : Count} : add? a b = some c ↔ c.toNat = a.toNat + b.toNat := by
  unfold add?
  have hc := c.toNat_lt_size
  split
  · next h =>
    rw [Option.some.injEq, ← UInt64.toNat_inj, UInt64.toNat_add, Nat.mod_eq_of_lt h, eq_comm]
  · next h => simp only [reduceCtorEq, false_iff]; omega

theorem add?_eq_none_iff {a b : Count} : add? a b = none ↔ UInt64.size ≤ a.toNat + b.toNat := by
  simp [add?]

theorem sub?_eq_some_iff {a b c : Count} : sub? a b = some c ↔ a.toNat = b.toNat + c.toNat := by
  unfold sub?
  split
  · next h =>
    rw [Option.some.injEq, ← UInt64.toNat_inj,
      UInt64.toNat_sub_of_le _ _ (UInt64.le_iff_toNat_le.2 h)]
    omega
  · next h => simp only [reduceCtorEq, false_iff]; omega

theorem sub?_eq_none_iff {a b : Count} : sub? a b = none ↔ a.toNat < b.toNat := by
  simp [sub?]

theorem toNat_addClamped (a b : Count) :
    (addClamped a b).toNat = min (UInt64.size - 1) (a.toNat + b.toNat) := by
  unfold addClamped
  cases h : add? a b with
  | none => rw [add?_eq_none_iff] at h; rw [Option.getD_none, toNat_max]; omega
  | some c =>
    have := c.toNat_lt_size
    rw [add?_eq_some_iff] at h
    rw [Option.getD_some]
    omega

end Count

end CoverageFlow
