import CoverageFlow.Proofs.Coverage.Keys
import CoverageFlow.Proofs.Coverage.Safety
import CoverageFlow.Proofs.Graph.Snapshot

/-!
# Reports by names

Reports tell names and no symbols, but they are made by going through the symbols in their order.
They come out the same in any other order: functions are grouped in the order of their identifiers,
and the counts of the lines of one block are added to different sums. So every report is determined
by the functions with names in place of symbols.

## Main definitions

* `FunctionGraph.Named.byFile`, `FunctionGraph.Named.countsByLine`: reports about named functions.
* `Coverage.SameUnit`: two units are the same but for the numbers of symbols.
* `Coverage.SameByName`: so are the reports about them.

## Main results

* `Coverage.nameGroups_functionsByFile`, `Coverage.countsByLine_eq_named`: the reports about a unit.
* `Coverage.SameUnit.sameByName`: no report depends on the numbers of symbols.
-/

namespace CoverageFlow

/-! ### Functions by file -/

namespace FunctionGraph.Named

/-- Adds a function to those of the file that declares it. -/
def addToSource (groups : Std.ExtTreeMap String (List Named)) (x : Named) :
    Std.ExtTreeMap String (List Named) :=
  groups.insert x.source (groups.getD x.source [] ++ [x])

/-- The functions that each file declares, by line and then by name. -/
def byFile (xs : List Named) : Std.ExtTreeMap String (List Named) :=
  (xs.foldl addToSource ∅).map fun _ xs =>
    xs.mergeSort fun x y => (x.rest.compareByLine y.rest).isLE

end FunctionGraph.Named

namespace Coverage

variable {c c' : Coverage} {f : FunctionGraph}

/-- Groups of functions with names for symbols. -/
def nameGroups (t : SymbolTable) (groups : Std.ExtTreeMap String (List FunctionGraph)) :
    Std.ExtTreeMap String (List FunctionGraph.Named) :=
  groups.map fun _ fs => fs.map (FunctionGraph.named t)

theorem nameGroups_addToSource (c : Coverage)
    (groups : Std.ExtTreeMap String (List FunctionGraph)) (f : FunctionGraph) :
    nameGroups c.symbols (c.addToSource groups f) =
      FunctionGraph.Named.addToSource (nameGroups c.symbols groups) (f.named c.symbols) := by
  have happend (fs : List FunctionGraph) : (fs ++ [f]).map (FunctionGraph.named c.symbols) =
      fs.map (FunctionGraph.named c.symbols) ++ [f.named c.symbols] := List.map_append
  exact map_adjust (g := (· ++ [f.named c.symbols])) happend

/-- Functions are grouped by the names of the files that declare them. -/
theorem nameGroups_functionsByFile (c : Coverage) : nameGroups c.symbols c.functionsByFile =
      FunctionGraph.Named.byFile (c.functionList.map (FunctionGraph.named c.symbols)) := by
  have hfold (groups : Std.ExtTreeMap String (List FunctionGraph)) (fs : List FunctionGraph) :
      nameGroups c.symbols (fs.foldl c.addToSource groups) =
        (fs.map (FunctionGraph.named c.symbols)).foldl FunctionGraph.Named.addToSource
          (nameGroups c.symbols groups) := by
    induction fs generalizing groups with
    | nil => rfl
    | cons f fs ih =>
      rw [List.foldl_cons, ih, nameGroups_addToSource, List.map_cons, List.foldl_cons]
  have hempty : nameGroups c.symbols ∅ = ∅ := Std.ExtTreeMap.ext_getElem? fun {file} => by
    rw [nameGroups, Std.ExtTreeMap.getElem?_map]
    rfl
  rw [FunctionGraph.Named.byFile, ← hempty, ← hfold]
  refine Std.ExtTreeMap.ext_getElem? fun {file} => ?_
  simp only [functionsByFile, nameGroups, Std.ExtTreeMap.getElem?_map, Option.map_map]
  congr 1
  funext fs
  exact List.map_mergeSort fun f _ g _ => rfl

end Coverage

/-! ### Counts by line -/

/-- All lines with their files, ordered by file and line. -/
def NamedLines.pairs (lines : NamedLines) : List (String × UInt32) :=
  lines.toList.flatMap fun entry => entry.2.toList.map fun line => (entry.1, line)

theorem LineMap.pairs_named_perm {t : SymbolTable} {lines : LineMap}
    (h : ∀ x ∈ lines, t.Knows x) :
    (lines.named t).pairs.Perm (lines.pairs.map fun spot => (t.name spot.1, spot.2)) := by
  have hpairs : (lines.pairs.map fun spot => (t.name spot.1, spot.2)) =
      (lines.toList.map fun entry => (t.name entry.1, entry.2)).flatMap fun entry =>
        entry.2.toList.map fun line => (entry.1, line) := by
    rw [pairs, List.map_flatMap, List.flatMap_map]
    simp only [List.map_map]
    rfl
  rw [hpairs]
  exact (toList_ofList_perm (nodup_names h)).flatMap_right _

/-- Counts of lines of files. -/
abbrev LineCounts (φ : Type) [Ord φ] : Type := Std.ExtTreeMap φ (Std.ExtTreeMap UInt32 Count)

namespace LineCounts

/-- Adds a count to a line; sums stop at the largest count. -/
def add {φ : Type} [Ord φ] [Std.TransOrd φ] (count : Count) (lines : LineCounts φ)
    (spot : φ × UInt32) : LineCounts φ :=
  adjust lines spot.1 ∅ fun counts => adjust counts spot.2 0 (Count.addClamped · count)

/-- It does not matter to which of two lines a count is added first. -/
theorem add_comm (count : Count) (lines : LineCounts String) (spot spot' : String × UInt32) :
    add count (add count lines spot) spot' = add count (add count lines spot') spot :=
  adjust_comm fun _ _ => adjust_comm fun _ _ => rfl

/-- Adds a count to all lines of a block. -/
def addAll (lines : LineCounts String) (block : NamedLines × Count) : LineCounts String :=
  block.1.pairs.foldl (add block.2) lines

end LineCounts

/-- The lines of the blocks of a function with their counts; a count that is not known is zero. -/
def FunctionGraph.Named.countedLines (x : Named) : List (NamedLines × Count) :=
  x.lines.zip (List.ofFn fun b => (x.rest.counts.blocks.get b).getD 0)

/-- The count of each line of each file: the sum of the counts of all blocks that cover it. -/
def FunctionGraph.Named.countsByLine (xs : List Named) : LineCounts String :=
  (xs.flatMap countedLines).foldl LineCounts.addAll ∅

namespace Coverage

variable {c c' : Coverage} {f : FunctionGraph}

theorem foldl_addToLine {lines : LineMap} (h : ∀ x ∈ lines, c.symbols.Knows x)
    (count : Count) (counts : LineCounts String) : lines.pairs.foldl (c.addToLine count) counts =
      counts.addAll (lines.named c.symbols, count) := by
  have hcomm := fun spot (_ : spot ∈ (lines.named c.symbols).pairs) spot'
    (_ : spot' ∈ (lines.named c.symbols).pairs) counts =>
      LineCounts.add_comm count counts spot spot'
  rw [LineCounts.addAll, (LineMap.pairs_named_perm h).foldl_eq' hcomm, List.foldl_map]
  rfl

theorem countedLines_named (t : SymbolTable) (f : FunctionGraph) : (f.named t).countedLines =
    (countedBlocks f).map fun block => (block.1.lines.named t, block.2) := by
  rw [countedBlocks, List.map_map, FunctionGraph.Named.countedLines, FunctionGraph.named,
    List.ofFn_eq_map, List.ofFn_eq_map]
  exact List.zip_map' ..

/-- Counts are added up by the names of files. -/
theorem countsByLine_eq_named (h : ∀ f ∈ c.functionList, ∀ x, f.Mentions x → c.symbols.Knows x) :
    c.countsByLine = FunctionGraph.Named.countsByLine
      (c.functionList.map (FunctionGraph.named c.symbols)) := by
  have hblocks : (c.functionList.map (FunctionGraph.named c.symbols)).flatMap
      FunctionGraph.Named.countedLines = (c.functionList.flatMap countedBlocks).map fun block =>
        (block.1.lines.named c.symbols, block.2) := by
    simp only [List.flatMap_map, List.map_flatMap, countedLines_named]
  rw [FunctionGraph.Named.countsByLine, hblocks, List.foldl_map]
  refine List.foldl_ext _ _ _ fun counts (block, count) hblock => ?_
  obtain ⟨f, hf, hblock⟩ := List.mem_flatMap.1 hblock
  obtain ⟨b, -, hb⟩ := List.mem_map.1 hblock
  cases hb
  exact foldl_addToLine (fun x hx => h f hf x (.inr ⟨b, hx⟩)) _ _

end Coverage

/-! ### Units -/

/-- What holds of the images of all elements of two lists. -/
theorem map_eq_map_of_imp {α α' β γ : Type} {f : α → β} {f' : α' → β} {g : α → γ} {g' : α' → γ}
    (h : ∀ a a', f a = f' a' → g a = g' a') {as : List α} {as' : List α'}
    (hmap : as.map f = as'.map f') : as.map g = as'.map g' := by
  rw [← List.forall₂_eq_eq_eq, List.forall₂_map_left_iff, List.forall₂_map_right_iff] at hmap ⊢
  exact hmap.imp h

namespace Coverage

variable {c c' : Coverage}

/-- The functions of a unit with names for symbols. -/
def namedFunctions (c : Coverage) : Std.ExtTreeMap Ident FunctionGraph.Named :=
  c.functions.map fun _ f => f.named c.symbols

/-- Two units are the same but for the numbers of symbols. -/
structure SameUnit (c c' : Coverage) : Prop where
  functions : c.namedFunctions = c'.namedFunctions
  rest : c' = { c with functions := c'.functions, symbols := c'.symbols }

/-- Two units are the same but for the numbers of symbols, and so are the reports about them. -/
structure SameByName (c c' : Coverage) : Prop extends SameUnit c c' where
  functionsByFile :
    nameGroups c.symbols c.functionsByFile = nameGroups c'.symbols c'.functionsByFile
  countsByLine : c.countsByLine = c'.countsByLine
  json : c.json.normal = c'.json.normal

theorem map_named_functionList (c : Coverage) :
    c.functionList.map (FunctionGraph.named c.symbols) =
      c.namedFunctions.toList.map Prod.snd := by
  rw [functionList, namedFunctions, Std.ExtTreeMap.toList_map, List.map_map, List.map_map]
  rfl

/-- Reports do not depend on the numbers of symbols. -/
theorem SameUnit.sameByName (h : c.SameUnit c') (hc : c.Safe) (hc' : c'.Safe) :
    c.SameByName c' := by
  have hlist : c.functionList.map (FunctionGraph.named c.symbols) =
      c'.functionList.map (FunctionGraph.named c'.symbols) := by
    rw [map_named_functionList, map_named_functionList, h.functions]
  refine ⟨h, ?_, ?_, ?_⟩
  · rw [nameGroups_functionsByFile, nameGroups_functionsByFile, hlist]
  · rw [countsByLine_eq_named fun f hf => (hc.of_mem_functionList hf).knows,
      countsByLine_eq_named fun f hf => (hc'.of_mem_functionList hf).knows, hlist]
  · have hjson : c.functionList.map (fun f => (f.json c.symbols).normal) =
        c'.functionList.map fun f => (f.json c'.symbols).normal :=
      map_eq_map_of_imp (fun _ _ => FunctionGraph.normal_json_congr) hlist
    rw [json, json]
    refine Json.normal_obj_congr ?_
    simp only [List.map_cons, Json.normal_list]
    rw [Json.list, Json.list, hjson, h.rest]

end Coverage

end CoverageFlow
