import CoverageFlow.Proofs.Path.Extension
import CoverageFlow.UnitPaths

/-!
# The order of unit paths

Unit paths are ordered by the path of their notes file, but they are equal if all their paths
are. The paths that are derived from a notes path depend on its components, whatever spelling of
it is given, with one exception: cutting the extension off a text that ends with `..gcno` leaves
the directory above. So `..gcno` and `..gcno/` are the same path, but their data paths are not.

## Main definitions

* `Path.LeavesParent`: cutting off the extension of a notes path leaves the directory above.

## Main results

* `Path.compare_eq_eq_iff`: two paths are ordered equal if they are the same path.
* `Path.Extended.components_replaceExtension`: the components of a path with another extension.
* `UnitPaths.compare_eq_eq_iff_beq`: when unit paths that are ordered equal are equal.
-/

namespace CoverageFlow

variable {p q : Path}

/-! ### The order of paths -/

instance : Std.LawfulEqOrd Path.Component where
  compare_self {a} := Ordering.then_eq_eq.2 ⟨Std.ReflCmp.compare_self, Std.ReflCmp.compare_self⟩
  eq_of_compare {a b} h := by
    obtain ⟨hrank, htext⟩ := Ordering.then_eq_eq.1 h
    have hrank' := Std.LawfulEqCmp.eq_of_compare hrank
    have htext' := Std.LawfulEqCmp.eq_of_compare htext
    cases a <;> cases b <;> first | rfl | exact congrArg Path.Component.name htext' | cases hrank'

theorem Path.beq_iff : (p == q) = true ↔ p.components = q.components :=
  beq_iff_eq (a := p.components)

/-- Two paths are ordered equal if they are the same path. -/
theorem Path.compare_eq_eq_iff : compare p q = .eq ↔ p.components = q.components := by
  change compare p.components q.components = .eq ↔ _
  exact Std.LawfulEqCmp.compare_eq_iff_eq

/-! ### Notes paths -/

/-- Cutting off the extension of a notes path leaves the directory above. -/
def Path.LeavesParent (p : Path) : Prop :=
  p.segments.getLast? = some "..gcno"

namespace Path.Extended

variable {before before' after after' : List String} {stem stem' old new : String}

theorem leavesParent_iff (h : p.Extended before stem "gcno" after) :
    p.LeavesParent ↔ stem = "." ∧ after = [] := by
  rw [LeavesParent, h.segments]
  rcases List.eq_nil_or_concat after with rfl | ⟨others, last, rfl⟩
  · have hname : "..gcno" = "." ++ "." ++ "gcno" := rfl
    rw [List.getLast?_concat, Option.some.injEq, hname, String.append_left_inj,
      String.append_left_inj]
    exact (and_iff_left rfl).symm
  · have hlast := h.ignorable last (by simp)
    refine iff_of_false (fun heq => ?_) (by simp)
    rw [List.concat_eq_append, ← List.cons_append, ← List.append_assoc, List.getLast?_concat] at heq
    rw [Option.some.inj heq] at hlast
    exact absurd hlast (by decide)

/-- The components of a path whose file name has an extension. -/
theorem components_path (h : p.Extended before stem old after) :
    p.components = leading before ++ [.name (stem ++ "." ++ old)] := by
  have hignorable := ignorable_append h.stem_ne old
  have hname : Component.ofFirst (stem ++ "." ++ old) = .name (stem ++ "." ++ old) := by
    rw [Component.ofFirst, if_neg (ne_empty_of_not_ignorable hignorable),
      if_neg (ne_dot_of_not_ignorable hignorable), if_neg h.ne_parent]
  rw [components_of_segments h.segments (ne_empty_of_not_ignorable hignorable) h.ignorable,
    leading_append_of_not_ignorable before hignorable, hname]

theorem components_replaceExtension (h : p.Extended before stem old after)
    (hnew : '/' ∉ new.toList) : (p.replaceExtension new).components = leading (before ++
      [if stem = "." ∧ after = [] then ".." else withExtension stem new]) := by
  obtain ⟨kept, hkept, hsegments⟩ := h.segments_replaceExtension hnew
  refine components_of_segments hsegments ?_ hkept
  split
  · decide
  · rw [withExtension]
    split
    · exact h.stem_ne
    · exact ne_empty_of_not_ignorable (ignorable_append h.stem_ne new)

section Same

variable (hp : p.Extended before stem "gcno" after) (hq : q.Extended before' stem "gcno" after')
  (hbefore : leading before = leading before')

include hp hq hbefore

/-- Notes paths in two spellings have the same path with another extension, if cutting off the
extension leaves the directory above for both or for neither. -/
theorem components_replaceExtension_congr (hleaves : p.LeavesParent ↔ q.LeavesParent)
    (hnew : '/' ∉ new.toList) :
    (p.replaceExtension new).components = (q.replaceExtension new).components := by
  rw [hp.leavesParent_iff, hq.leavesParent_iff] at hleaves
  rw [hp.components_replaceExtension hnew, hq.components_replaceExtension hnew,
    leading_append_singleton hbefore]
  simp only [hleaves]

/-- They have different data paths if it leaves the directory above for one of them alone. -/
theorem leavesParent_congr
    (h : (p.replaceExtension "gcda").components = (q.replaceExtension "gcda").components) :
    p.LeavesParent ↔ q.LeavesParent := by
  have hdistinct : leading (before' ++ [".."]) ≠
      leading (before' ++ [withExtension "." "gcda"]) := by
    rw [leading_append_of_not_ignorable before' rfl, leading_append_of_not_ignorable before' rfl]
    simp [withExtension, Component.ofFirst]
  rw [hp.components_replaceExtension (by decide), hq.components_replaceExtension (by decide),
    leading_append_singleton hbefore] at h
  rw [hp.leavesParent_iff, hq.leavesParent_iff]
  split_ifs at h with hparent hparent' hparent'
  · exact iff_of_true hparent hparent'
  · obtain ⟨rfl, -⟩ := hparent
    exact absurd h hdistinct
  · obtain ⟨rfl, -⟩ := hparent'
    exact absurd h.symm hdistinct
  · exact iff_of_false hparent hparent'

end Same

end Path.Extended

namespace UnitPaths

variable {u v : UnitPaths}

theorem beq_iff : (u == v) = true ↔ u.notesPath.components = v.notesPath.components ∧
    u.dataPath.components = v.dataPath.components ∧ u.stem = v.stem := by
  change (u.notesPath == v.notesPath && (u.dataPath == v.dataPath && u.stem == v.stem)) = true ↔ _
  rw [Bool.and_eq_true, Bool.and_eq_true, Path.beq_iff, Path.beq_iff, beq_iff_eq]

/-- Unit paths that are ordered equal are equal, unless cutting off the extension leaves the
directory above for one of them alone. -/
theorem compare_eq_eq_iff_beq (hu : ofPath p = .ok u) (hv : ofPath q = .ok v) :
    (compare u v = .eq ↔ (p == q) = true) ∧
      ((u == v) = true ↔ compare u v = .eq ∧ (p.LeavesParent ↔ q.LeavesParent)) := by
  obtain ⟨hp, rfl⟩ := ofPath_eq_ok_iff.1 hu
  obtain ⟨hq, rfl⟩ := ofPath_eq_ok_iff.1 hv
  obtain ⟨before, stem, after, hp⟩ := Path.exists_extended hp
  obtain ⟨before', stem', after', hq⟩ := Path.exists_extended hq
  have hcompare : compare (UnitPaths.mk p (p.replaceExtension "gcda")
      (p.replaceExtension "").flatten) ⟨q, q.replaceExtension "gcda",
        (q.replaceExtension "").flatten⟩ = .eq ↔ p.components = q.components :=
    Path.compare_eq_eq_iff
  refine ⟨hcompare.trans Path.beq_iff.symm, ?_⟩
  rw [hcompare, beq_iff]
  refine and_congr_right fun hpq => ?_
  -- The same components have the same stem, and so have those before them.
  have hsame : p.components = q.components := hpq
  rw [hp.components_path, hq.components_path, List.append_singleton_inj,
    Path.Component.name.injEq, String.append_left_inj, String.append_left_inj] at hsame
  obtain ⟨hbefore, rfl⟩ := hsame
  constructor
  · exact fun h => hp.leavesParent_congr hq hbefore h.1
  · intro hleaves
    have hcomponents {new : String} (hnew : '/' ∉ new.toList) :=
      hp.components_replaceExtension_congr hq hbefore hleaves hnew
    refine ⟨hcomponents (by decide), ?_⟩
    dsimp only
    rw [Path.flatten_eq, Path.flatten_eq, hcomponents (by decide)]

/-- One path in two spellings: they are ordered equal, but they are not equal. -/
theorem exists_compare_eq_eq_beq_false : ∃ u v, ofPath ⟨"..gcno"⟩ = .ok u ∧
    ofPath ⟨"..gcno/"⟩ = .ok v ∧ compare u v = .eq ∧ (u == v) = false :=
  ⟨_, _, rfl, rfl, by decide, by decide⟩

/-- Separators and components `.` in between make no difference, not even for such a path. -/
theorem compare_eq_eq_iff_beq_spelling : ∃ u v, ofPath ⟨"a/./..gcno"⟩ = .ok u ∧
    ofPath ⟨"a//..gcno"⟩ = .ok v ∧ (u == v) = true := by
  obtain ⟨u, hu⟩ : ∃ u, ofPath ⟨"a/./..gcno"⟩ = .ok u := ⟨_, rfl⟩
  obtain ⟨v, hv⟩ : ∃ v, ofPath ⟨"a//..gcno"⟩ = .ok v := ⟨_, rfl⟩
  obtain ⟨hcompare, hbeq⟩ := compare_eq_eq_iff_beq hu hv
  have hleft : (Path.mk "a/./..gcno").LeavesParent := by
    rw [Path.LeavesParent]
    decide
  have hright : (Path.mk "a//..gcno").LeavesParent := by
    rw [Path.LeavesParent]
    decide
  exact ⟨u, v, hu, hv, hbeq.2 ⟨hcompare.2 (by decide), iff_of_true hleft hright⟩⟩

end UnitPaths

end CoverageFlow
