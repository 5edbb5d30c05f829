import CoverageFlow.Proofs.Path.Components

/-!
# Paths with another extension

To give a path another extension, the old one is cut off the end of its text first, and then the
extension of what is left is set. If the text goes on after the file name with ignored segments,
the cut takes some of them, and perhaps the end of the extension. What is left has still the same
stem, so the result is what one expects.

There is one exception. If the stem is `.` and nothing follows the file name, the directory above
is left, which has no extension to set.

## Main definitions

* `Path.Extended`: the file name of a path by its stem and its extension.
* `Path.withExtension`: a stem with an extension.

## Main results

* `Path.exists_extended`: a path that has an extension has such a file name.
* `Path.Extended.segments_replaceExtension`: the segments of a path with another extension.
-/

namespace CoverageFlow

namespace Path

variable {p : Path} {before after : List String} {stem old new : String}

/-- The file name of a path has a stem and an extension; segments come before it, and ignored ones
after it. -/
structure Extended (p : Path) (before : List String) (stem old : String) (after : List String) :
    Prop where
  segments : p.segments = before ++ (stem ++ "." ++ old) :: after
  stem_ne : stem ≠ ""
  dot_notMem : '.' ∉ old.toList
  ne_parent : stem ++ "." ++ old ≠ ".."
  ignorable : ∀ s ∈ after, ignorable s = true

theorem splitLast?_dot {name : String} : Text.splitLast? '.' name = some (stem, old) ↔
    name = stem ++ "." ++ old ∧ '.' ∉ old.toList :=
  Text.splitLast?_eq_some_iff

theorem splitExtension_eq_some_iff {name : String} : splitExtension name = (stem, some old) ↔
    name = stem ++ "." ++ old ∧ stem ≠ "" ∧ '.' ∉ old.toList := by
  rw [splitExtension]
  rcases hsplit : Text.splitLast? '.' name with - | ⟨before, after⟩
  · refine iff_of_false (by simp) ?_
    rintro ⟨hname, -, hdot⟩
    rw [splitLast?_dot.2 ⟨hname, hdot⟩] at hsplit
    cases hsplit
  · obtain ⟨hname, hdot⟩ := splitLast?_dot.1 hsplit
    dsimp only
    constructor
    · intro h
      split at h
      · cases h
      · next hne =>
        obtain ⟨rfl, hold⟩ := Prod.mk.inj h
        cases hold
        exact ⟨hname, hne, hdot⟩
    · rintro ⟨hname', hne, hdot'⟩
      rw [splitLast?_dot.2 ⟨hname', hdot'⟩] at hsplit
      cases hsplit
      rw [if_neg hne]

theorem ignorable_append (h : stem ≠ "") (old : String) :
    Path.ignorable (stem ++ "." ++ old) = false := by
  have hlength : 2 ≤ (stem ++ "." ++ old).length := by
    have hstem : 0 < stem.length := Nat.pos_of_ne_zero fun h' => h (String.length_eq_zero_iff.1 h')
    simp only [String.length_append]
    have : (".").length = 1 := rfl
    omega
  rw [Path.ignorable, Bool.or_eq_false_iff, decide_eq_false_iff_not, decide_eq_false_iff_not]
  constructor <;> intro he <;> rw [he] at hlength <;> exact absurd hlength (by decide)

theorem ignorable_of_prefix {segment : String} {cs : List Char}
    (h : Path.ignorable segment = true) (hcs : cs <+: segment.toList) :
    Path.ignorable (String.ofList cs) = true := by
  rw [Path.ignorable, Bool.or_eq_true, decide_eq_true_eq, decide_eq_true_eq] at h
  rcases h with rfl | rfl
  · obtain rfl := List.prefix_nil.1 hcs
    rfl
  · obtain rfl | ⟨rest, rfl, hrest⟩ := List.prefix_cons_iff.1 hcs
    · rfl
    · obtain rfl := List.prefix_nil.1 hrest
      rfl

/-- A path that has an extension has a file name with a stem. -/
theorem exists_extended (h : p.extension? = some old) :
    ∃ before stem after, p.Extended before stem old after := by
  obtain ⟨name, hname, hold⟩ := Option.bind_eq_some_iff.1 h
  obtain ⟨⟨before, name⟩, hsplit, rfl⟩ := Option.map_eq_some_iff.1 hname
  rw [← List.reverse_reverse before, splitName?_eq_some_iff] at hsplit
  obtain ⟨-, hparent, after, hsegments, hafter⟩ := hsplit
  obtain ⟨stem, hstem⟩ : ∃ stem, splitExtension name = (stem, some old) := ⟨_, Prod.ext rfl hold⟩
  obtain ⟨rfl, hne, hdot⟩ := splitExtension_eq_some_iff.1 hstem
  exact ⟨before.reverse, stem, after, hsegments, hne, hdot, hparent, hafter⟩

/-- A stem with an extension; an empty one leaves no dot. -/
def withExtension (stem extension : String) : String :=
  if extension = "" then stem else stem ++ "." ++ extension

namespace Extended

theorem splitName?_eq (h : p.Extended before stem old after) :
    p.splitName? = some (before.reverse, stem ++ "." ++ old) :=
  splitName?_eq_some_iff.2
    ⟨ignorable_append h.stem_ne old, h.ne_parent, after, h.segments, h.ignorable⟩

theorem splitExtension_eq (h : p.Extended before stem old after) :
    splitExtension (stem ++ "." ++ old) = (stem, some old) :=
  splitExtension_eq_some_iff.2 ⟨rfl, h.stem_ne, h.dot_notMem⟩

theorem extension?_eq (h : p.Extended before stem old after) : p.extension? = some old := by
  rw [extension?, fileName?, h.splitName?_eq, Option.map_some, Option.bind_some,
    h.splitExtension_eq]

theorem separator_notMem (h : p.Extended before stem old after) {segment : String}
    (hs : segment ∈ before ++ (stem ++ "." ++ old) :: after) : '/' ∉ segment.toList :=
  Text.notMem_of_mem_split (h.segments ▸ hs)

theorem segments_setExtension (h : p.Extended before stem old after) (hnew : '/' ∉ new.toList) :
    (p.setExtension new).segments = before ++ [withExtension stem new] := by
  have hset : p.setExtension new = ⟨Text.join '/' (before ++ [withExtension stem new])⟩ := by
    rw [setExtension, h.splitName?_eq]
    dsimp only
    rw [h.splitExtension_eq, List.reverse_cons, List.reverse_reverse]
    rfl
  rw [hset, Path.segments, Text.split_join (by simp)]
  intro segment hs
  rcases List.mem_append.1 hs with hs | hs
  · exact h.separator_notMem (List.mem_append_left _ hs)
  · have hname : '/' ∉ (stem ++ "." ++ old).toList := h.separator_notMem (by simp)
    obtain rfl := List.mem_singleton.1 hs
    rw [withExtension]
    split <;> simp_all

/-- What is left after as many characters were cut off the end as the extension has. -/
theorem segments_cut (h : p.Extended before stem old after) : ∃ rest kept,
    (Path.mk (String.ofList (p.text.toList.take (p.text.length - old.length)))).segments =
      before ++ (stem ++ "." ++ rest) :: kept ∧ '.' ∉ rest.toList ∧
      (∀ s ∈ kept, Path.ignorable s = true) ∧ (rest = "" ↔ old = "" ∨ after = []) := by
  have hchars : Text.splitChars '/' p.text.toList = before.map String.toList ++
      (stem ++ "." ++ old).toList :: after.map String.toList := by
    have hmap := congrArg (List.map String.toList) h.segments
    rw [Path.segments, Text.split, List.map_map] at hmap
    simpa [Function.comp_def] using hmap
  have hname : (stem ++ "." ++ old).toList = (stem ++ ".").toList ++ old.toList :=
    String.toList_append
  obtain ⟨kept, hkept, hprefix⟩ := Text.splitChars_take hchars (k := old.length) (by
    rw [hname, List.length_append, String.length_toList]
    exact Nat.le_add_left _ _)
  set cut := ((after.map String.toList).flatMap ('/' :: ·)).length with hcut
  have hlength : (stem ++ "." ++ old).toList.length + cut - old.length =
      (stem ++ ".").toList.length + cut := by
    rw [hname, List.length_append, String.length_toList (s := old)]
    omega
  rw [hlength, hname, List.take_length_add_append] at hkept
  refine ⟨String.ofList (old.toList.take cut), kept.map String.ofList, ?_, ?_, ?_, ?_⟩
  · rw [Path.segments, Text.split, String.toList_ofList, ← String.length_toList, hkept]
    simp [Function.comp_def, String.append_assoc]
  · rw [String.toList_ofList]
    exact fun hmem => h.dot_notMem (List.mem_of_mem_take hmem)
  · intro s hs
    obtain ⟨cs, hcs, rfl⟩ := List.mem_map.1 hs
    obtain ⟨whole, hwhole, hpart⟩ := hprefix cs hcs
    obtain ⟨segment, hsegment, rfl⟩ := List.mem_map.1 hwhole
    exact ignorable_of_prefix (h.ignorable segment hsegment) hpart
  · have hzero : cut = 0 ↔ after = [] := by
      rw [hcut, List.length_eq_zero_iff, List.flatMap_eq_nil_iff]
      constructor
      · intro hnil
        refine List.eq_nil_iff_forall_not_mem.2 fun s hs => ?_
        exact absurd (hnil _ (List.mem_map_of_mem hs)) (List.cons_ne_nil _ _)
      · rintro rfl
        simp
    rw [String.ofList_eq_empty_iff, List.take_eq_nil_iff, String.toList_eq_nil_iff, hzero, or_comm]

/-- The segments of a path with another extension. -/
theorem segments_replaceExtension (h : p.Extended before stem old after)
    (hnew : '/' ∉ new.toList) : ∃ kept, (∀ s ∈ kept, Path.ignorable s = true) ∧
      (p.replaceExtension new).segments = before ++
        (if stem = "." ∧ after = [] then ".." else withExtension stem new) :: kept := by
  obtain ⟨rest, kept, hsegments, hdot, hkept, hrest⟩ := h.segments_cut
  rw [replaceExtension, h.extension?_eq]
  dsimp only
  set left : Path := ⟨String.ofList (p.text.toList.take (p.text.length - old.length))⟩
  by_cases hparent : stem ++ "." ++ rest = ".."
  · have hsplit := splitExtension_eq_some_iff.2 ⟨hparent.symm, h.stem_ne, hdot⟩
    obtain ⟨rfl, rfl⟩ : "." = stem ∧ "" = rest := by
      simpa [show splitExtension ".." = (".", some "") by decide] using hsplit
    have hafter : after = [] := by
      refine (hrest.1 rfl).resolve_left ?_
      rintro rfl
      exact h.ne_parent rfl
    refine ⟨kept, hkept, ?_⟩
    rw [setExtension, splitName?_of_parent hsegments hkept, if_pos ⟨rfl, hafter⟩]
    exact hsegments
  · have hleft : left.Extended before stem rest kept :=
      ⟨hsegments, h.stem_ne, hdot, hparent, hkept⟩
    refine ⟨[], fun s hs => absurd hs List.not_mem_nil, ?_⟩
    rw [hleft.segments_setExtension hnew, if_neg]
    rintro ⟨rfl, hafter⟩
    rw [hrest.2 (.inr hafter)] at hparent
    exact hparent rfl

end Extended

end Path

end CoverageFlow
