import CoverageFlow.Path
import CoverageFlow.Proofs.Text.Split

/-!
# What the components of a path decide

Different texts can be the same path: separators may be repeated, and components `.` may stand in
between or at the end. Only the first segment of a path is read in its own way. All else that is
told about a path depends on its components alone, such as its flat name.

A path whose last segment that counts is a given one consists of the segments before it, and of
ignored ones after it.

## Main definitions

* `Path.leading`: the components that segments mean, when they begin a path.
* `Path.Component.flat?`: how a component is written in a flat name.

## Main results

* `Path.flatten_eq`: the flat name of a path is made of its components.
* `Path.components_of_segments`: the components of a path up to its last segment that counts.
* `Path.leading_append_singleton`: what comes before the last segment counts by its components.
* `Path.splitName?_eq_some_iff`: which segment is the file name of a path.
-/

namespace CoverageFlow

namespace Path

variable {p q : Path} {before before' after : List String} {segment name : String}

/-! ### Components of segments -/

theorem exists_segments (p : Path) : ∃ first rest, p.segments = first :: rest :=
  List.exists_cons_of_ne_nil (Text.split_ne_nil '/' p.text)

/-- What the first segment of a path means. -/
def Component.ofFirst (segment : String) : Component :=
  if segment = "" then .root
  else if segment = "." then .current
  else if segment = ".." then .parent
  else .name segment

/-- What segments mean that begin a path. -/
def leading : List String → List Component
  | [] => []
  | first :: rest => .ofFirst first :: rest.filterMap Component.ofSegment?

theorem ne_empty_of_not_ignorable (h : ignorable segment = false) : segment ≠ "" := by
  rintro rfl
  cases h

theorem ne_dot_of_not_ignorable (h : ignorable segment = false) : segment ≠ "." := by
  rintro rfl
  cases h

theorem ofSegment?_of_ignorable (h : ignorable segment = true) :
    Component.ofSegment? segment = none := by
  rw [ignorable, Bool.or_eq_true, decide_eq_true_eq, decide_eq_true_eq] at h
  exact if_pos h

theorem ofSegment?_of_not_ignorable (h : ignorable segment = false) :
    Component.ofSegment? segment = some (.ofFirst segment) := by
  have hempty := ne_empty_of_not_ignorable h
  have hdot := ne_dot_of_not_ignorable h
  rw [Component.ofSegment?, Component.ofFirst, if_neg (not_or.2 ⟨hempty, hdot⟩), if_neg hempty,
    if_neg hdot]
  split <;> rfl

theorem filterMap_ofSegment?_of_ignorable (h : ∀ s ∈ after, ignorable s = true) :
    after.filterMap Component.ofSegment? = [] :=
  List.filterMap_eq_nil_iff.2 fun s hs => ofSegment?_of_ignorable (h s hs)

/-- A path has the components that its segments mean, unless its text is empty. -/
theorem components_eq (p : Path) :
    p.components = if p.segments = [""] then [] else leading p.segments := by
  rw [components]
  split
  · next rest hsegments =>
    rw [hsegments]
    rcases rest with - | ⟨next, rest⟩
    · rfl
    · rw [if_neg (by simp)]
      rfl
  · next rest hsegments =>
    rw [hsegments, if_neg (by simp)]
    rfl
  · next hroot hcurrent =>
    rcases hsegments : p.segments with - | ⟨first, rest⟩
    · rfl
    · have hempty : first ≠ "" := fun h => hroot rest (h ▸ hsegments)
      have hdot : first ≠ "." := fun h => hcurrent rest (h ▸ hsegments)
      have hfirst : ignorable first = false := by simp [ignorable, hempty, hdot]
      rw [if_neg (by simp [hempty]), List.filterMap_cons_some (ofSegment?_of_not_ignorable hfirst)]
      rfl

/-- Segments that are ignored at the end do not count. -/
theorem components_of_segments (hp : p.segments = before ++ segment :: after)
    (hsegment : segment ≠ "") (hafter : ∀ s ∈ after, ignorable s = true) :
    p.components = leading (before ++ [segment]) := by
  have hne : p.segments ≠ [""] := by
    rw [hp]
    rcases before with - | ⟨first, before⟩
    · simp [hsegment]
    · simp
  rw [components_eq, if_neg hne, hp]
  rcases before with - | ⟨first, before⟩
  · rw [List.nil_append, List.nil_append, leading, filterMap_ofSegment?_of_ignorable hafter]
    rfl
  · rw [List.cons_append, List.cons_append, leading, leading, List.filterMap_append,
      List.filterMap_append, List.filterMap_cons, List.filterMap_cons,
      filterMap_ofSegment?_of_ignorable hafter]
    rfl

/-- What comes before the last segment counts by what it means. -/
theorem leading_append_singleton (h : leading before = leading before') (segment : String) :
    leading (before ++ [segment]) = leading (before' ++ [segment]) := by
  rcases before with - | ⟨first, before⟩ <;> rcases before' with - | ⟨first', before'⟩
  · rfl
  · cases h
  · cases h
  · obtain ⟨hfirst, hrest⟩ := List.cons.inj h
    rw [List.cons_append, List.cons_append, leading, leading, List.filterMap_append,
      List.filterMap_append, hfirst, hrest]

theorem leading_append_of_not_ignorable (before : List String) (h : ignorable segment = false) :
    leading (before ++ [segment]) = leading before ++ [.ofFirst segment] := by
  rcases before with - | ⟨first, before⟩
  · rfl
  · rw [List.cons_append, leading, leading, List.filterMap_append,
      List.filterMap_cons_some (ofSegment?_of_not_ignorable h)]
    rfl

/-! ### Flat names -/

/-- How a component is written in a flat name, if it is. -/
def Component.flat? : Component → Option String
  | .root => some ""
  | .current => none
  | .parent => some "^"
  | .name text => some text

theorem flat?_ofFirst (segment : String) : (Component.ofFirst segment).flat? =
    if segment = "." then none else some (flatSegment segment) := by
  rw [Component.ofFirst, flatSegment]
  split_ifs <;> simp_all [Component.flat?]

theorem filterMap_flat? (segments : List String) :
    (segments.filterMap Component.ofSegment?).filterMap Component.flat? =
      (segments.filter fun s => !ignorable s).map flatSegment := by
  induction segments with
  | nil => rfl
  | cons segment segments ih =>
    rcases h : ignorable segment with - | -
    · have hflat : (Component.ofFirst segment).flat? = some (flatSegment segment) := by
        rw [flat?_ofFirst, if_neg (ne_dot_of_not_ignorable h)]
      rw [List.filterMap_cons_some (ofSegment?_of_not_ignorable h),
        List.filterMap_cons_some hflat, List.filter_cons_of_pos (by rw [h]; rfl), List.map_cons, ih]
    · rw [List.filterMap_cons_none (ofSegment?_of_ignorable h),
        List.filter_cons_of_neg (by rw [h]; exact Bool.false_ne_true), ih]

/-- The flat name of a path is made of its components. -/
theorem flatten_eq (p : Path) :
    p.flatten = Text.join '#' (p.components.filterMap Component.flat?) := by
  obtain ⟨first, rest, hsegments⟩ := p.exists_segments
  have hleading : (leading (first :: rest)).filterMap Component.flat? =
      (([first].filter (· ≠ ".")) ++ rest.filter fun s => !ignorable s).map flatSegment := by
    rw [List.map_append, ← filterMap_flat?, leading, List.filterMap_cons, flat?_ofFirst]
    by_cases hdot : first = "." <;> simp [hdot]
  rw [flatten, components_eq, hsegments]
  dsimp only
  rw [← hleading]
  split
  · next hempty =>
    rw [hempty]
    rfl
  · rfl

/-! ### File names -/

theorem dropWhile_ignorable (hp : p.segments = before ++ segment :: after)
    (hsegment : ignorable segment = false) (hafter : ∀ s ∈ after, ignorable s = true) :
    p.segments.reverse.dropWhile ignorable = segment :: before.reverse := by
  have hreverse : p.segments.reverse = after.reverse ++ segment :: before.reverse := by
    rw [hp]
    simp
  rw [hreverse, List.dropWhile_append_of_pos fun s hs => hafter s (List.mem_reverse.1 hs),
    List.dropWhile_cons_of_neg (by rw [hsegment]; exact Bool.false_ne_true)]

/-- The directory above is no file name. -/
theorem splitName?_of_parent (hp : p.segments = before ++ ".." :: after)
    (hafter : ∀ s ∈ after, ignorable s = true) : p.splitName? = none := by
  rw [splitName?, dropWhile_ignorable hp rfl hafter]
  rfl

/-- The file name of a path is the last segment that counts, unless that is the directory above. -/
theorem splitName?_eq_some_iff : p.splitName? = some (before.reverse, name) ↔
    ignorable name = false ∧ name ≠ ".." ∧
      ∃ after, p.segments = before ++ name :: after ∧ ∀ s ∈ after, ignorable s = true := by
  rw [splitName?]
  constructor
  · intro h
    split at h
    · cases h
    · next last rest hdrop =>
      split at h
      · cases h
      · next hparent =>
        obtain ⟨rfl, rfl⟩ := Prod.mk.inj (Option.some.inj h)
        have hlast := List.head_dropWhile_not (p := ignorable) (l := p.segments.reverse)
          (by rw [hdrop]; exact List.cons_ne_nil _ _)
        simp only [hdrop, List.head_cons] at hlast
        have hsegments := congrArg List.reverse
          (List.takeWhile_append_dropWhile (p := ignorable) (l := p.segments.reverse))
        rw [hdrop, List.reverse_append, List.reverse_reverse] at hsegments
        refine ⟨hlast, hparent, (p.segments.reverse.takeWhile ignorable).reverse, ?_, ?_⟩
        · simpa using hsegments.symm
        · intro s hs
          exact List.mem_takeWhile_imp (List.mem_reverse.1 hs)
  · rintro ⟨hname, hparent, after, hsegments, hafter⟩
    rw [dropWhile_ignorable hsegments hname hafter]
    dsimp only
    rw [if_neg hparent]

end Path

end CoverageFlow
