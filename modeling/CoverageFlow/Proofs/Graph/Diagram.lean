import CoverageFlow.Graph.Diagram
import CoverageFlow.Proofs.Graph.Attributes
import CoverageFlow.Proofs.Graph.LifeCycle
import CoverageFlow.Proofs.Text.Dot

/-!
# What diagrams draw

A diagram has a line for every block, in the order of the blocks, and then one for every arc, in the
order of the notes file. Labels vary with the counts, and none of them breaks a line, so that the
body of the diagram draws the graph of the records in every state.

The name is written between quotes, and its own quotes are escaped. Its backslashes are not, so a
reader finds the name if and only if backslashes before a quote and at the end of it come in pairs.
The name `a\` is not read at all: its backslash takes the closing quote along, and the string ends
somewhere in the first block.

## Main definitions

* `FunctionRecord.drawn`: the statements of the graph that the records describe.
* `FunctionGraph.Draws`: what the diagram of a function is read as.

## Main results

* `FunctionGraph.isLine_blockLine`, `FunctionGraph.isLine_arcLine`: one line for each statement.
* `FunctionGraph.diagram_draws`: the body of a diagram is always read, the whole of it if the name
  is.
-/

namespace CoverageFlow

/-- The statements of a graph with the blocks and arcs of a function. -/
def FunctionRecord.drawn {φ : Type} (record : FunctionRecord φ) : List Dot.Statement :=
  (List.range record.blocks.length).map .node ++
    record.statedArcs.map fun arc => .edge arc.source arc.target

namespace FunctionGraph

variable {f f₀ : FunctionGraph} {record : FunctionRecord Symbol}

/-! ### Lines -/

theorem oneLine_countLabel (count : Option Count) :
    Dot.OneLine (countLabel count).1 ∧ Dot.OneLine (countLabel count).2 := by
  cases count with
  | none => decide
  | some count =>
    refine ⟨?_, Dot.oneLine_decimal _⟩
    change Dot.OneLine (if count = 0 then "red" else "darkgreen")
    split <;> decide

theorem oneLine_linesLabel (f : FunctionGraph) (b : Fin f.size) :
    Dot.OneLine (f.linesLabel b) := by
  rw [linesLabel]
  split
  · decide
  · split
    · decide
    · split
      · decide
      · refine (by decide : Dot.OneLine "#").append (.intercalate ?_)
        intro text htext
        obtain ⟨pair, -, rfl⟩ := List.mem_map.1 htext
        exact Dot.oneLine_decimal _

theorem oneLine_arcStyle (attr : ArcAttributes) :
    Dot.OneLine (arcStyle attr).1 ∧ Dot.OneLine (arcStyle attr).2.1 := by
  rw [arcStyle]
  split
  · decide
  · split <;> decide

/-- The line of a block draws its number. -/
theorem isLine_blockLine (f : FunctionGraph) (b : Fin f.size) :
    Dot.IsLine (f.blockLine b) (.node b) := by
  obtain ⟨hcolor, hlabel⟩ := oneLine_countLabel (f.counts.blocks.get b)
  have hopens := Dot.opens_node b
    " [label=<<table cellspacing=\"0\"><tr><td rowspan=\"2\"><font color=\""
    (by decide) (by decide)
  have hcount := ((hopens.append hcolor).append (by decide : Dot.OneLine "\">")).append hlabel
  have hnumber := (hcount.append
    (by decide : Dot.OneLine "</font></td><td><font point-size=\"9\">@")).append
    (Dot.oneLine_decimal b)
  have hlines := (hnumber.append
    (by decide : Dot.OneLine "</font></td></tr><tr><td><font point-size=\"9\">")).append
    (f.oneLine_linesLabel b)
  exact hlines.isLine "</font></td></tr></table>>" (by decide) (by decide)

/-- The line of an arc draws its ends. -/
theorem isLine_arcLine (f : FunctionGraph) (i : Fin f.numArcs) :
    Dot.IsLine (f.arcLine i) (.edge (f.arcs.get i).source (f.arcs.get i).target) := by
  obtain ⟨hfont, hlabel⟩ := oneLine_countLabel (f.counts.arcs.get i)
  obtain ⟨hstyle, hcolor⟩ := oneLine_arcStyle (f.arcs.get i).attr
  have hconstraint : Dot.OneLine (if (f.arcs.get i).attr.fake then "false" else "true") := by
    split <;> decide
  have hopens := Dot.opens_edge (f.arcs.get i).source (f.arcs.get i).target " [style="
    (by decide) (by decide)
  have hlook := ((hopens.append hstyle).append (by decide : Dot.OneLine ", color=")).append hcolor
  have hweight := (hlook.append (by decide : Dot.OneLine ", weight=")).append
    (Dot.oneLine_decimal (arcStyle (f.arcs.get i).attr).2.2)
  have hlayout := (hweight.append (by decide : Dot.OneLine ", constraint=")).append hconstraint
  have hcount := (((hlayout.append (by decide : Dot.OneLine ", fontcolor=\"")).append hfont).append
    (by decide : Dot.OneLine "\", label=<")).append hlabel
  have hbits := (hcount.append (by decide : Dot.OneLine "<font point-size=\"9\">(")).append
    (Dot.oneLine_write ⟨false, 2⟩ (f.arcs.get i).attr.bits)
  exact hbits.isLine "h)</font>>" (by decide) (by decide)

/-- The lines draw the graph of the records. -/
theorem Lists.diagramLines (h : f.Lists record) :
    List.Forall₂ Dot.IsLine f.diagramLines record.drawn := by
  have hblocks : (List.range record.blocks.length).map Dot.Statement.node =
      (List.finRange f.size).map fun b => .node b := by
    rw [← h.size, ← List.map_coe_finRange_eq_range, List.map_map]
    rfl
  have harcs : (record.statedArcs.map fun arc => Dot.Statement.edge arc.source arc.target) =
      (List.finRange f.numArcs).map fun i =>
        .edge (f.arcs.get i).source (f.arcs.get i).target := by
    rw [← h.arcs, toList_eq_map_get, List.map_map, List.map_map]
    rfl
  rw [FunctionRecord.drawn, hblocks, harcs, FunctionGraph.diagramLines]
  refine List.rel_append ?_ ?_
  · exact List.forall₂_map_left_iff.2 (List.forall₂_map_right_iff.2
      (List.forall₂_same.2 fun b _ => f.isLine_blockLine b))
  · exact List.forall₂_map_left_iff.2 (List.forall₂_map_right_iff.2
      (List.forall₂_same.2 fun i _ => f.isLine_arcLine i))

/-! ### Names -/

theorem toList_quotedName (name : String) :
    (quotedName name).toList = '"' :: (Dot.escape name.toList ++ ['"']) := by
  have hchar : ∀ c : Char, (if c = '"' then "\\\"" else c.toString).toList =
      if c = '"' then ['\\', '"'] else [c] := by
    intro c
    split
    · rfl
    · rw [Char.toString, String.toList_singleton]
  rw [quotedName, Dot.escape_eq_flatMap, String.toList_append, String.toList_append,
    String.toList_join, List.flatMap_map]
  simp only [hchar]
  rfl

/-- The text of a diagram, from its first character to the last one. -/
theorem toList_diagram (f : FunctionGraph) : f.diagram.toList =
    Dot.keyword ++ (Dot.escape f.name.toList ++ '"' ::
      (Dot.opening ++ (String.join f.diagramLines ++ "\x7d\n").toList)) := by
  have hkeyword : Dot.keyword = "digraph ".toList ++ ['"'] := rfl
  rewrite [diagram, hkeyword]
  simp only [String.toList_append, toList_quotedName, List.append_assoc, List.cons_append,
    List.nil_append]
  rfl

/-- The first quote after the name belongs to an attribute of the first block. -/
theorem firstQuote_blockLine (f : FunctionGraph) (b : Fin f.size) :
    Dot.FirstQuote (f.blockLine b).toList := by
  obtain ⟨label, hlabel⟩ : ∃ label,
      " [label=<<table cellspacing=\"0\"><tr><td rowspan=\"2\"><font color=\"".toList =
        " [label=<<table cellspacing=".toList ++ '"' :: '0' :: label :=
    ⟨"\"><tr><td rowspan=\"2\"><font color=\"".toList, by decide⟩
  have hnumber : ∀ c : Char, c.isDigit = false → c ∉ (Text.decimal b).toList := by
    intro c hc hmem
    rw [Text.decimal, String.toList_ofList] at hmem
    rw [Nat.isDigit_of_mem_toDigits (by decide) (by decide) hmem] at hc
    cases hc
  obtain ⟨rest, hline⟩ : ∃ rest, (f.blockLine b).toList =
      ("\t".toList ++ ((Text.decimal b).toList ++
        " [label=<<table cellspacing=\"0\"><tr><td rowspan=\"2\"><font color=\"".toList)) ++
          rest := by
    simp only [blockLine, String.toList_append, List.append_assoc]
    exact ⟨_, rfl⟩
  rw [hline, hlabel]
  refine Dot.FirstQuote.append ⟨"\t".toList ++ ((Text.decimal b).toList ++
    " [label=<<table cellspacing=".toList), '0', label, ?_, by decide, ?_, ?_⟩ rest
  · simp only [List.append_assoc]
  · rw [List.mem_append, List.mem_append]
    exact not_or.2 ⟨by decide, not_or.2 ⟨hnumber _ rfl, by decide⟩⟩
  · rw [List.mem_append, List.mem_append]
    exact not_or.2 ⟨by decide, not_or.2 ⟨hnumber _ rfl, by decide⟩⟩

/-- The whole diagram is read, or nothing of it. -/
theorem Lists.read?_diagram (h : f.Lists record) : Dot.read? f.diagram.toList =
    if Dot.EvenSlashes f.name.toList then some ⟨f.name, record.drawn⟩ else none := by
  rw [toList_diagram]
  refine Dot.read?_eq f.name ?_ (Dot.statements?_splitChars h.diagramLines)
  obtain ⟨b, blocks, hblocks⟩ : ∃ b blocks, List.finRange f.size = b :: blocks :=
    List.exists_cons_of_ne_nil (List.ne_nil_of_mem (List.mem_finRange f.entry))
  rw [FunctionGraph.diagramLines, hblocks, List.map_cons, List.cons_append, String.join_cons,
    String.append_assoc, String.toList_append]
  exact (f.firstQuote_blockLine b).append _

/-! ### Diagrams of functions -/

/-- What the diagram of a function is read as. -/
structure Draws (f : FunctionGraph) (record : FunctionRecord Symbol) : Prop where
  /-- Between the quotes stands the name with its own quotes escaped. The lines draw one node for
  each block and one edge for each arc. -/
  text : ∃ body, f.diagram.toList =
      Dot.keyword ++ (Dot.escape record.name.toList ++ '"' :: (Dot.opening ++ body)) ∧
    Dot.statements? (Text.splitChars '\n' body) = some record.drawn
  name : Dot.unescape (Dot.escape record.name.toList) = record.name.toList
  /-- A reader finds all this if backslashes before a quote and at the end of the name come in
  pairs, and nothing otherwise. -/
  read : Dot.read? f.diagram.toList =
    if Dot.EvenSlashes record.name.toList then some ⟨record.name, record.drawn⟩ else none

/-- Diagrams draw the graph of the records, whatever was merged. It depends on the name alone
whether it is found. -/
theorem diagram_draws (h : ofRecord record = .ok f₀) (calls : List FunctionData) :
    (f₀.after calls).Draws record := by
  have hname : (f₀.after calls).name = record.name := by
    rw [name_after]
    exact congrArg Announcement.name (toAnnouncement_of_ofRecord h)
  have hlists : (f₀.after calls).Lists record := by
    obtain ⟨counts, merged, statistics, hafter⟩ := f₀.after_eq calls
    obtain ⟨size, arcs, numArcs, instrumented, full, complexity⟩ := lists_of_ofRecord h
    rw [hafter]
    exact ⟨size, arcs, numArcs, instrumented, full, complexity⟩
  have hread := hlists.read?_diagram
  have htext := (f₀.after calls).toList_diagram
  rw [hname] at hread htext
  exact ⟨⟨_, htext, Dot.statements?_splitChars hlists.diagramLines⟩, Dot.unescape_escape _, hread⟩

/-- A function of three blocks with a loop. -/
def namedRecord (name : String) : FunctionRecord Symbol where
  ident := ⟨1⟩
  checksum := 0
  name
  source := ⟨0⟩
  line := 1
  blocks := [0, 0, 0]
  arcs := [⟨⟨0⟩, [⟨⟨1⟩, 4⟩]⟩, ⟨⟨1⟩, [⟨⟨1⟩, 0⟩, ⟨⟨2⟩, 1⟩]⟩]
  lines := []

/-- The name `a"\\` has a quote, and two backslashes at its end. -/
theorem diagram_draws_pair : ∃ f, ofRecord (namedRecord "a\"\\\\") = .ok f ∧
    (f.after [⟨⟨1⟩, 0, [5, 7]⟩]).Draws (namedRecord "a\"\\\\") ∧
    (f.after [⟨⟨1⟩, 0, [5, 7]⟩]).isComplete = true ∧
    Dot.read? (f.after [⟨⟨1⟩, 0, [5, 7]⟩]).diagram.toList =
      some ⟨"a\"\\\\", [.node 0, .node 1, .node 2, .edge 0 1, .edge 1 1, .edge 1 2]⟩ := by
  obtain ⟨f, hf, hcomplete⟩ : ∃ f, ofRecord (namedRecord "a\"\\\\") = .ok f ∧
      (f.after [⟨⟨1⟩, 0, [5, 7]⟩]).isComplete = true := ⟨_, by cbv, by cbv⟩
  have hdraws := diagram_draws hf [⟨⟨1⟩, 0, [5, 7]⟩]
  exact ⟨f, hf, hdraws, hcomplete, hdraws.read.trans (if_pos (by decide))⟩

/-- The name `a\` takes the closing quote along, and what follows cannot be read. -/
theorem exists_diagram_unreadable : ∃ f, ofRecord (namedRecord "a\\") = .ok f ∧
    Dot.read? f.diagram.toList = none := by
  obtain ⟨f, hf, hname⟩ : ∃ f, ofRecord (namedRecord "a\\") = .ok f ∧ f.name = "a\\" :=
    ⟨_, by cbv, by cbv⟩
  have hread := (lists_of_ofRecord hf).read?_diagram
  rw [hname, if_neg (by decide)] at hread
  exact ⟨f, hf, hread⟩

end FunctionGraph

end CoverageFlow
