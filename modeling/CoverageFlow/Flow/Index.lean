/-!
# Values by index

What is known about the blocks or arcs of a function is held in vectors with one value for each of
them. An index of the right type is in range, so reading and writing need no further proof.

## Main results

* `get_set`: what is read after a value was written.
-/

namespace CoverageFlow

variable {α : Type} {n : Nat}

theorem get_eq_getElem (v : Vector α n) (i : Fin n) : v.get i = getElem v i.val i.isLt := rfl

theorem get_set (v : Vector α n) (i j : Fin n) (a : α) :
    (v.set i a i.isLt).get j = if i = j then a else v.get j := by
  simp only [get_eq_getElem, Vector.getElem_set, Fin.ext_iff]

theorem get_replicate (a : α) (i : Fin n) : (Vector.replicate n a).get i = a := by
  rw [get_eq_getElem, Vector.getElem_replicate]

end CoverageFlow
