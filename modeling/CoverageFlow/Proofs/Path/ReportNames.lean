import CoverageFlow.Proofs.Path.Components
import CoverageFlow.UnitPaths

/-!
# Report names do not collide

A report is named after two paths, that of the notes file without its extension and that of a
source file. Both are flattened into one name each, with a double separator in between. The parts
of a flat name are the segments that count, and only the first one of them may be empty, so the
double separator is found again: splitting a report name gives both flat names back.

Flattening has to forget the difference between names and its own marks. Apart from that, it only
forgets segments that do not count, and whether nothing is left of a path or the root alone. This is
about paths that are texts, as `Path` has them.

## Main definitions

* `Path.reduced`: the segments of a path that count.
* `Path.SameReduced`: two paths have the same segments that count.
* `Path.Plain`: no segment of a path looks like a mark in a flat name.

## Main results

* `Path.flatten_flatten`: a flat name is flat.
* `Path.Plain.flatParts_eq_iff`: which paths have the same flat name.
* `UnitPaths.reportPaths_distinct`: which reports have the same name.
-/

namespace CoverageFlow

variable {p q s t : Path}

namespace Path

/-- The segments of a path that count: all but empty ones and `.`, but the first one may be
empty. -/
def reduced (p : Path) : List String :=
  p.segments.head?.toList.filter (· ≠ ".") ++ p.segments.tail.filter fun s => s ≠ "" && s ≠ "."

/-- Nothing is left of a path, or the root alone. -/
def LeadsNowhere (p : Path) : Prop := p.reduced = [] ∨ p.reduced = [""]

/-- Two paths have the same segments that count. -/
def SameReduced (p q : Path) : Prop := p.reduced = q.reduced ∨ p.LeadsNowhere ∧ q.LeadsNowhere

/-- No segment of a path looks like a mark in a flat name. -/
structure Plain (p : Path) : Prop where
  separator_notMem : '#' ∉ p.text.toList
  mark_notMem : "^" ∉ p.segments

/-! ### The parts of a flat name -/

theorem flatten_eq_join (p : Path) : p.flatten = Text.join '#' (p.reduced.map flatSegment) := by
  obtain ⟨first, rest, hsegments⟩ := p.exists_segments
  have hcount : (fun s : String => s ≠ "" && s ≠ ".") = fun s => !ignorable s := by
    funext s
    simp [ignorable]
  rw [flatten, reduced, hsegments, hcount]
  rfl

theorem mem_segments_of_mem_reduced {segment : String} (h : segment ∈ p.reduced) :
    segment ∈ p.segments ∧ segment ≠ "." := by
  obtain ⟨first, rest, hsegments⟩ := p.exists_segments
  rw [reduced, hsegments] at h
  rw [hsegments]
  rcases List.mem_append.1 h with h | h
  · obtain ⟨hmem, hne⟩ := List.mem_filter.1 h
    obtain rfl : segment = first := by simpa using hmem
    exact ⟨List.mem_cons_self, by simpa using hne⟩
  · obtain ⟨hmem, hne⟩ := List.mem_filter.1 h
    exact ⟨List.mem_cons_of_mem _ hmem, by simp_all⟩

/-- Only the first segment that counts may be empty. -/
theorem empty_notMem_tail_reduced (p : Path) : "" ∉ p.reduced.tail := by
  obtain ⟨first, rest, hsegments⟩ := p.exists_segments
  have hrest : "" ∉ rest.filter fun s => s ≠ "" && s ≠ "." := by simp
  rw [reduced, hsegments, List.head?_cons, Option.toList_some, List.tail_cons]
  by_cases hdot : first = "."
  · rw [List.filter_cons_of_neg (by simpa using hdot), List.filter_nil, List.nil_append]
    exact fun hmem => hrest (List.mem_of_mem_tail hmem)
  · rw [List.filter_cons_of_pos (by simpa using hdot)]
    exact hrest

theorem flatSegment_eq_empty_iff {segment : String} : flatSegment segment = "" ↔ segment = "" := by
  rw [flatSegment]
  split <;> simp_all

/-- Segments that do not look like the mark for the directory above are told apart. -/
theorem flatSegment_inj {segment segment' : String} (h : segment ≠ "^") (h' : segment' ≠ "^")
    (heq : flatSegment segment = flatSegment segment') : segment = segment' := by
  rw [flatSegment, flatSegment] at heq
  split_ifs at heq <;> simp_all

theorem map_flatSegment_inj {l l' : List String} (h : ∀ s ∈ l, s ≠ "^") (h' : ∀ s ∈ l', s ≠ "^")
    (heq : l.map flatSegment = l'.map flatSegment) : l = l' := by
  induction l generalizing l' with
  | nil => exact (List.map_eq_nil_iff.1 heq.symm).symm
  | cons first l ih =>
    rcases l' with - | ⟨first', l'⟩
    · cases heq
    · obtain ⟨hfirst, hrest⟩ := List.cons.inj heq
      rw [flatSegment_inj (h first (by simp)) (h' first' (by simp)) hfirst,
        ih (fun s hs => h s (List.mem_cons_of_mem _ hs))
          (fun s hs => h' s (List.mem_cons_of_mem _ hs)) hrest]

theorem mem_of_mem_flatSegment {segment : String} {c : Char}
    (h : c ∈ (flatSegment segment).toList) : c = '^' ∨ c ∈ segment.toList := by
  rw [flatSegment] at h
  split at h
  · exact .inl (List.mem_singleton.1 h)
  · exact .inr h

/-- The characters of a flat name are marks and those of the path. -/
theorem mem_flatten {c : Char} (h : c ∈ p.flatten.toList) :
    c = '#' ∨ c = '^' ∨ ∃ segment ∈ p.segments, c ∈ segment.toList := by
  rw [flatten_eq_join] at h
  refine (Text.mem_join h).imp_right fun ⟨part, hpart, hc⟩ => ?_
  obtain ⟨segment, hsegment, rfl⟩ := List.mem_map.1 hpart
  exact (mem_of_mem_flatSegment hc).imp_right fun hc =>
    ⟨segment, (mem_segments_of_mem_reduced hsegment).1, hc⟩

theorem separator_notMem_flatten (p : Path) : '/' ∉ p.flatten.toList := by
  intro h
  obtain h | h | ⟨segment, hsegment, hc⟩ := mem_flatten h
  · cases h
  · cases h
  · exact Text.notMem_of_mem_split hsegment hc

/-- A flat name is no component `.` or `..`, since these are dropped or marked. -/
theorem flatten_ne_dots (p : Path) : p.flatten ≠ "." ∧ p.flatten ≠ ".." := by
  suffices h : '#' ∉ p.flatten.toList → p.flatten ≠ "." ∧ p.flatten ≠ ".." by
    refine ⟨fun heq => (h ?_).1 heq, fun heq => (h ?_).2 heq⟩ <;> rw [heq] <;> decide
  intro hseparator
  rw [flatten_eq_join] at hseparator ⊢
  have hlength := Text.length_le_one_of_join hseparator
  rcases hreduced : p.reduced with - | ⟨segment, - | ⟨next, rest⟩⟩
  · constructor <;> decide
  · have hdot := (mem_segments_of_mem_reduced (p := p) (hreduced ▸ List.mem_cons_self)).2
    change String.ofList (flatSegment segment).toList ≠ "." ∧
      String.ofList (flatSegment segment).toList ≠ ".."
    rw [String.ofList_toList, flatSegment]
    split
    · constructor <;> decide
    · next hparent => exact ⟨hdot, hparent⟩
  · rw [hreduced] at hlength
    simp at hlength

/-- A flat name is flat. -/
theorem flatten_flatten (p : Path) : (Path.mk p.flatten).flatten = p.flatten := by
  have hsegments : (Path.mk p.flatten).segments = [p.flatten] :=
    Text.split_of_notMem p.separator_notMem_flatten
  obtain ⟨hdot, hparent⟩ := p.flatten_ne_dots
  have hreduced : (Path.mk p.flatten).reduced = [p.flatten] := by
    rw [reduced, hsegments]
    simp [hdot]
  rw [flatten_eq_join (Path.mk p.flatten), hreduced, List.map_singleton, flatSegment,
    if_neg hparent]
  exact String.ofList_toList

/-! ### Paths with the same flat name -/

/-- The parts of a flat name. -/
def flatParts (p : Path) : List String :=
  if p.reduced = [] then [""] else p.reduced.map flatSegment

theorem empty_notMem_tail_flatParts (p : Path) : "" ∉ p.flatParts.tail := by
  rw [flatParts]
  split
  · exact List.not_mem_nil
  · rw [← List.map_tail]
    intro hmem
    obtain ⟨segment, hsegment, hempty⟩ := List.mem_map.1 hmem
    rw [flatSegment_eq_empty_iff] at hempty
    exact p.empty_notMem_tail_reduced (hempty ▸ hsegment)

theorem exists_flatParts (p : Path) : ∃ first rest, p.flatParts = first :: rest ∧ "" ∉ rest := by
  have hne : p.flatParts ≠ [] := by
    rw [flatParts]
    split
    · exact List.cons_ne_nil _ _
    · next hreduced => exact fun hnil => hreduced (List.map_eq_nil_iff.1 hnil)
  obtain ⟨first, rest, hparts⟩ := List.exists_cons_of_ne_nil hne
  have hrest := p.empty_notMem_tail_flatParts
  rw [hparts] at hrest
  exact ⟨first, rest, hparts, hrest⟩

theorem flatParts_eq_singleton_iff : p.flatParts = [""] ↔ p.LeadsNowhere := by
  rw [flatParts, LeadsNowhere]
  split
  · next hnil => exact iff_of_true rfl (.inl hnil)
  · next hne =>
    rw [List.map_eq_singleton_iff, or_iff_right hne]
    simp only [flatSegment_eq_empty_iff, exists_eq_right]

theorem flatten_eq_join_flatParts (p : Path) : p.flatten = Text.join '#' p.flatParts := by
  rw [flatten_eq_join, flatParts]
  split
  · next hnil =>
    rw [hnil]
    rfl
  · rfl

namespace Plain

/-- Splitting a flat name gives its parts back. -/
theorem split_flatten (h : p.Plain) : Text.split '#' p.flatten = p.flatParts := by
  obtain ⟨first, rest, hparts, -⟩ := p.exists_flatParts
  rw [flatten_eq_join_flatParts, Text.split_join (hparts ▸ List.cons_ne_nil _ _)]
  intro part hpart hc
  rw [flatParts] at hpart
  split at hpart
  · rw [List.mem_singleton.1 hpart] at hc
    cases hc
  · obtain ⟨segment, hsegment, rfl⟩ := List.mem_map.1 hpart
    rcases mem_of_mem_flatSegment hc with hc | hc
    · cases hc
    · exact h.separator_notMem (Text.mem_of_mem_split (mem_segments_of_mem_reduced hsegment).1 hc)

theorem ne_mark (h : p.Plain) {segment : String} (hs : segment ∈ p.reduced) : segment ≠ "^" :=
  fun he => h.mark_notMem (he ▸ (mem_segments_of_mem_reduced hs).1)

/-- The parts of a flat name tell which segments count. -/
theorem flatParts_eq_iff (hp : p.Plain) (hq : q.Plain) :
    p.flatParts = q.flatParts ↔ p.SameReduced q := by
  constructor
  · intro h
    by_cases hnowhere : p.LeadsNowhere
    · rw [flatParts_eq_singleton_iff.2 hnowhere, eq_comm, flatParts_eq_singleton_iff] at h
      exact .inr ⟨hnowhere, h⟩
    · have hnowhere' : ¬ q.LeadsNowhere := by
        rwa [← flatParts_eq_singleton_iff, ← h, flatParts_eq_singleton_iff]
      rw [flatParts, flatParts, if_neg fun hnil => hnowhere (.inl hnil),
        if_neg fun hnil => hnowhere' (.inl hnil)] at h
      exact .inl (map_flatSegment_inj (fun _ => hp.ne_mark) (fun _ => hq.ne_mark) h)
  · rintro (h | ⟨h, h'⟩)
    · rw [flatParts, flatParts, h]
    · rw [flatParts_eq_singleton_iff.2 h, flatParts_eq_singleton_iff.2 h']

end Plain

end Path

namespace UnitPaths

/-- Up to the file extension, a report name consists of the parts of both flat names, with an empty
one in between. -/
theorem split_reportName (hp : p.Plain) (hs : s.Plain) :
    Text.split '#' (p.flatten ++ "##" ++ s.flatten) = p.flatParts ++ "" :: s.flatParts := by
  have hseparators : p.flatten ++ "##" ++ s.flatten = p.flatten ++ String.singleton '#' ++
      ("" ++ String.singleton '#' ++ s.flatten) := by
    rw [← String.toList_inj]
    simp
  rw [hseparators, Text.split_append, Text.split_append, hp.split_flatten, hs.split_flatten]
  rfl

/-- Report names are equal only if they are made of the same parts. -/
theorem reportName_eq_iff (hp : p.Plain) (hq : q.Plain) (hs : s.Plain) (ht : t.Plain) :
    p.flatten ++ "##" ++ s.flatten ++ ".gcov" = q.flatten ++ "##" ++ t.flatten ++ ".gcov" ↔
      p.SameReduced q ∧ s.SameReduced t := by
  rw [String.append_left_inj]
  constructor
  · intro h
    have hparts := congrArg (Text.split '#') h
    rw [split_reportName hp hs, split_reportName hq ht] at hparts
    obtain ⟨first, rest, hfirst, hrest⟩ := p.exists_flatParts
    obtain ⟨first', rest', hfirst', hrest'⟩ := q.exists_flatParts
    rw [hfirst, hfirst', List.cons_append, List.cons_append, List.cons.injEq] at hparts
    obtain ⟨rfl, hparts⟩ := hparts
    obtain ⟨rfl, hsource⟩ := Text.append_cons_inj hrest hrest' hparts
    exact ⟨(hp.flatParts_eq_iff hq).1 (hfirst.trans hfirst'.symm),
      (hs.flatParts_eq_iff ht).1 hsource⟩
  · rintro ⟨hpq, hst⟩
    simp only [Path.flatten_eq_join_flatParts, (hp.flatParts_eq_iff hq).2 hpq,
      (hs.flatParts_eq_iff ht).2 hst]

/-- Flat names are flat and have no separators, and two reports have the same name only if both
their notes files and their sources are the same up to segments that do not count. -/
theorem reportPaths_distinct :
    (∀ p : Path, '/' ∉ p.flatten.toList ∧ (Path.mk p.flatten).flatten = p.flatten) ∧
    ∀ (p q : Path) (u v : UnitPaths) (source source' : String),
      ofPath p = .ok u → ofPath q = .ok v →
      (p.replaceExtension "").Plain → (q.replaceExtension "").Plain →
      (Path.mk source).Plain → (Path.mk source').Plain →
      (u.reportPath source = v.reportPath source' ↔
        (p.replaceExtension "").SameReduced (q.replaceExtension "") ∧
          (Path.mk source).SameReduced ⟨source'⟩) := by
  refine ⟨fun p => ⟨p.separator_notMem_flatten, p.flatten_flatten⟩, ?_⟩
  intro p q u v source source' hu hv hp hq hs ht
  obtain ⟨-, rfl⟩ := ofPath_eq_ok_iff.1 hu
  obtain ⟨-, rfl⟩ := ofPath_eq_ok_iff.1 hv
  rw [reportPath, reportPath, reportName_eq_iff hp hq hs ht]

/-- A notes file and a source in two spellings have one report, and a source with another root has
another one. -/
theorem reportPaths_distinct_spelling : ∃ u v, ofPath ⟨"/obj/./a.gcno"⟩ = .ok u ∧
    ofPath ⟨"//obj/a.gcno/"⟩ = .ok v ∧ u.reportPath "/../x.c" = v.reportPath "//.././x.c" ∧
      u.reportPath "/../x.c" ≠ v.reportPath "../x.c" := by
  obtain ⟨u, hu⟩ : ∃ u, ofPath ⟨"/obj/./a.gcno"⟩ = .ok u :=
    ⟨_, ofPath_eq_ok_iff.2 ⟨by cbv, rfl⟩⟩
  obtain ⟨v, hv⟩ : ∃ v, ofPath ⟨"//obj/a.gcno/"⟩ = .ok v :=
    ⟨_, ofPath_eq_ok_iff.2 ⟨by cbv, rfl⟩⟩
  have hp : (Path.mk "/obj/./a.gcno").replaceExtension "" = ⟨"/obj/./a"⟩ := by cbv
  have hq : (Path.mk "//obj/a.gcno/").replaceExtension "" = ⟨"//obj/a"⟩ := by cbv
  have hnames (source' : String) (hplain : (Path.mk source').Plain) :
      u.reportPath "/../x.c" = v.reportPath source' ↔
        (Path.mk "/obj/./a").SameReduced ⟨"//obj/a"⟩ ∧
          (Path.mk "/../x.c").SameReduced ⟨source'⟩ := by
    rw [← hp, ← hq]
    refine reportPaths_distinct.2 _ _ u v _ _ hu hv ?_ ?_ ⟨by decide, by decide⟩ hplain
    · rw [hp]
      exact ⟨by decide, by decide⟩
    · rw [hq]
      exact ⟨by decide, by decide⟩
  refine ⟨u, v, hu, hv, ?_, fun heq => ?_⟩
  · exact (hnames _ ⟨by decide, by decide⟩).2 ⟨.inl (by decide), .inl (by decide)⟩
  · obtain ⟨-, hsame | ⟨hnowhere | hnowhere, -⟩⟩ := (hnames _ ⟨by decide, by decide⟩).1 heq
    · exact absurd hsame (by decide)
    · exact absurd hnowhere (by decide)
    · exact absurd hnowhere (by decide)

end UnitPaths

end CoverageFlow
