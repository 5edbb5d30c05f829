import CoverageFlow.Proofs.Coverage.Lines
import CoverageFlow.Proofs.Graph.Listing

/-!
# Functions by source file

Functions are grouped by the symbols of the files that declare them, and then each group gets the
name of its file. Were two symbols to have the same name, the group of the first would be lost. The
table of a unit holds no name twice and knows the files of all functions, so every group keeps a
name of its own, and grouping by names straight away does the same.

Each group is sorted by line and name. The functions of a unit come in the order of their
identifiers, and since sorting is stable those with the same line and name stay in this order.

## Main definitions

* `Coverage.functionsBySource`: functions grouped by symbols, then named.
* `FunctionGraph.Precedes`: the order of the functions of a file.
* `Coverage.GroupsFunctions`: every function is once in the group of its file, and nowhere else.

## Main results

* `Coverage.functionsBySource_eq`: two ways to group the functions of a unit.
* `Coverage.functionsBySource_faithful`: the groups of a unit that was read.
-/

namespace CoverageFlow

/-! ### The order of a group -/

namespace FunctionGraph

/-- The order of the functions of a file: by line, then by name, then by identifier. -/
def Precedes (f g : FunctionGraph) : Prop :=
  f.line < g.line ∨ f.line = g.line ∧
    (f.name < g.name ∨ f.name = g.name ∧ f.ident.val < g.ident.val)

instance : Std.TransCmp compareByLine :=
  inferInstanceAs (Std.TransCmp (compareLex (compareOn fun f : FunctionGraph => f.line)
    (compareOn fun f => f.name)))

/-- Functions by line, then by name; those equal in both keep their order. -/
def sortByLine (fs : List FunctionGraph) : List FunctionGraph :=
  fs.mergeSort fun f g => (f.compareByLine g).isLE

theorem sortByLine_perm (fs : List FunctionGraph) : (sortByLine fs).Perm fs :=
  List.mergeSort_perm _ _

/-- Functions with ordered identifiers are sorted by line, name and identifier. -/
theorem pairwise_sortByLine {fs : List FunctionGraph}
    (h : fs.Pairwise fun f g => f.ident.val < g.ident.val) : (sortByLine fs).Pairwise Precedes := by
  refine (pairwise_mergeSort_of_pairwise (fun _ _ _ => Std.TransCmp.isLE_trans) ?_ h).imp ?_
  · intro f g
    have hswap : g.compareByLine f = (f.compareByLine g).swap := Std.OrientedCmp.eq_swap
    rw [hswap]
    cases f.compareByLine g <;> rfl
  · rintro f g ⟨hle, hstable⟩
    obtain hlt | ⟨heq, hle⟩ := Ordering.isLE_then_iff_or.1 hle
    · exact .inl (Std.compare_eq_lt.1 hlt)
    have hline := Std.LawfulEqOrd.eq_of_compare heq
    refine .inr ⟨hline, ?_⟩
    obtain hlt | heq := Ordering.isLE_iff_eq_lt_or_eq_eq.1 hle
    · exact .inl (compareOfLessAndEq_eq_lt.1 hlt)
    have hname := Std.LawfulEqOrd.eq_of_compare heq
    refine .inr ⟨hname, hstable ?_⟩
    rw [compareByLine, hline, hname, Std.ReflOrd.compare_self, Std.ReflOrd.compare_self]
    rfl

end FunctionGraph

namespace Coverage

variable {c : Coverage} {notes : List UInt8}

/-! ### Groups of a unit -/

/-- The functions that each file declares: grouped by symbols, sorted, and given the names of the
files. Of two groups with the same name the last would count. -/
def functionsBySource (c : Coverage) : Std.ExtTreeMap String (List FunctionGraph) :=
  .ofList ((groupBy (fun f => f.source) c.functionList).toList.map fun entry =>
    (c.fileName entry.1, FunctionGraph.sortByLine entry.2)) compare

/-- If every file is known, functions can be grouped by names straight away. -/
theorem functionsBySource_eq (h : ∀ f ∈ c.functionList, c.symbols.Knows f.source) :
    c.functionsBySource = c.functionsByFile := by
  have hcomp := groupBy_comp (fun f : FunctionGraph => f.source) (g := c.fileName)
    fun f hf g hg heq => (h f hf).name_inj (h g hg) heq
  change _ = (groupBy (fun f => c.fileName f.source) c.functionList).map
    fun _ => FunctionGraph.sortByLine
  rw [hcomp, ← ofList_map, functionsBySource, List.map_map]
  rfl

/-- The functions that a file declares, by identifier. -/
def declaredIn (c : Coverage) (name : String) : List FunctionGraph :=
  c.functionList.filter fun f => c.fileName f.source = name

theorem mem_declaredIn {name : String} {f : FunctionGraph} :
    f ∈ c.declaredIn name ↔ f ∈ c.functionList ∧ c.fileName f.source = name := by
  rw [declaredIn, List.mem_filter, decide_eq_true_eq]

/-- A file with functions is listed with all of them, and a file with none is not listed. -/
theorem getElem?_functionsByFile_eq_some_iff {name : String} {fs : List FunctionGraph} :
    c.functionsByFile[name]? = some fs ↔
      c.declaredIn name ≠ [] ∧ FunctionGraph.sortByLine (c.declaredIn name) = fs := by
  change ((groupBy (fun f : FunctionGraph => c.fileName f.source) c.functionList).map
    fun _ => FunctionGraph.sortByLine)[name]? = some fs ↔ _
  rw [Std.ExtTreeMap.getElem?_map, Option.map_eq_some_iff]
  simp only [getElem?_groupBy_eq_some_iff, and_assoc]
  constructor
  · rintro ⟨_, hne, rfl, hsort⟩
    exact ⟨hne, hsort⟩
  · rintro ⟨hne, hsort⟩
    exact ⟨_, hne, rfl, hsort⟩

/-- The list of a file holds the functions that the file declares. -/
theorem perm_declaredIn {name : String} {fs : List FunctionGraph}
    (h : c.functionsByFile[name]? = some fs) : fs.Perm (c.declaredIn name) := by
  obtain ⟨-, rfl⟩ := getElem?_functionsByFile_eq_some_iff.1 h
  exact FunctionGraph.sortByLine_perm _

/-- Every function of a unit is once in the list of the file that declares it, and in no other. -/
structure GroupsFunctions (c : Coverage) (groups : Std.ExtTreeMap String (List FunctionGraph)) :
    Prop where
  /-- The symbol of every file that declares a function has a name. -/
  resolves : ∀ f ∈ c.functionList, ∃ name, c.symbols.resolve? f.source = some name
  /-- The keys are these names. -/
  mem_iff : ∀ name, name ∈ groups ↔
    ∃ f ∈ c.functionList, c.symbols.resolve? f.source = some name
  /-- A list holds the functions that the file with this name declares. -/
  perm : ∀ (name : String) (fs : List FunctionGraph), groups[name]? = some fs →
    fs.Perm (c.functionList.filter fun f => c.symbols.resolve? f.source = some name)
  ne_nil : ∀ (name : String) (fs : List FunctionGraph), groups[name]? = some fs → fs ≠ []
  /-- It is ordered by line, by name and by identifier. -/
  pairwise : ∀ (name : String) (fs : List FunctionGraph), groups[name]? = some fs →
    fs.Pairwise FunctionGraph.Precedes
  /-- All lists together hold all functions. -/
  flatMap_perm : (groups.toList.flatMap Prod.snd).Perm c.functionList
  /-- No two functions have the same identifier. -/
  nodup : (c.functionList.map fun f => f.ident).Nodup

/-- All lists together hold all functions, if no function comes twice. -/
theorem flatMap_functionsByFile_perm (h : c.functionList.Nodup) :
    (c.functionsByFile.toList.flatMap Prod.snd).Perm c.functionList := by
  have hmem {name : String} {fs : List FunctionGraph}
      (hfs : (name, fs) ∈ c.functionsByFile.toList) : fs.Perm (c.declaredIn name) :=
    perm_declaredIn (Std.ExtTreeMap.mem_toList_iff_getElem?_eq_some.1 hfs)
  have hnodup : (c.functionsByFile.toList.flatMap Prod.snd).Nodup := by
    refine List.nodup_flatMap.2 ⟨fun entry hentry => ?_, ?_⟩
    · exact (hmem hentry).nodup_iff.2 (h.filter _)
    · refine (List.pairwise_map.1 (nodup_fst_toList _)).imp_of_mem fun hx hy hne f hf hf' => hne ?_
      exact (mem_declaredIn.1 ((hmem hx).subset hf)).2.symm.trans
        (mem_declaredIn.1 ((hmem hy).subset hf')).2
  refine (List.perm_ext_iff_of_nodup hnodup h).2 fun f => ⟨fun hf => ?_, fun hf => ?_⟩
  · obtain ⟨entry, hentry, hf⟩ := List.mem_flatMap.1 hf
    exact (mem_declaredIn.1 ((hmem hentry).subset hf)).1
  · have hdeclared : f ∈ c.declaredIn (c.fileName f.source) := mem_declaredIn.2 ⟨hf, rfl⟩
    have hget := getElem?_functionsByFile_eq_some_iff.2 ⟨List.ne_nil_of_mem hdeclared, rfl⟩
    have hentry := Std.ExtTreeMap.mem_toList_iff_getElem?_eq_some.2 hget
    exact List.mem_flatMap.2 ⟨_, hentry, (hmem hentry).mem_iff.2 hdeclared⟩

/-- The functions of a unit can be grouped if their files are known and their identifiers
ordered. -/
theorem groupsFunctions (hknows : ∀ f ∈ c.functionList, c.symbols.Knows f.source)
    (hordered : c.functionList.Pairwise fun f g => f.ident.val < g.ident.val) :
    c.GroupsFunctions c.functionsByFile := by
  have hresolve (f : FunctionGraph) (hf : f ∈ c.functionList) (name : String) :
      c.symbols.resolve? f.source = some name ↔ c.fileName f.source = name := by
    obtain ⟨name', hname'⟩ := hknows f hf
    rw [fileName, SymbolTable.name, hname', Option.some_inj, Option.getD_some]
  have hdeclared (name : String) :
      (c.functionList.filter fun f => c.symbols.resolve? f.source = some name) =
        c.declaredIn name :=
    List.filter_congr fun f hf => decide_eq_decide.2 (hresolve f hf name)
  have hident : c.functionList.Pairwise fun f g => f.ident ≠ g.ident :=
    hordered.imp fun hlt heq => UInt32.ne_of_lt hlt (congrArg Ident.val heq)
  constructor
  case resolves => exact hknows
  case mem_iff =>
    intro name
    rw [Std.ExtTreeMap.mem_iff_isSome_getElem?, Option.isSome_iff_exists]
    simp only [getElem?_functionsByFile_eq_some_iff, exists_and_left, exists_eq', and_true]
    rw [← hdeclared, ne_eq, List.filter_eq_nil_iff]
    simp only [decide_eq_true_eq, not_forall, not_not, exists_prop]
  case perm =>
    intro name fs hfs
    rw [hdeclared]
    exact perm_declaredIn hfs
  case ne_nil =>
    intro name fs hfs
    obtain ⟨hne, rfl⟩ := getElem?_functionsByFile_eq_some_iff.1 hfs
    exact fun hnil => hne (List.nil_perm.1 (hnil ▸ FunctionGraph.sortByLine_perm _))
  case pairwise =>
    intro name fs hfs
    obtain ⟨-, rfl⟩ := getElem?_functionsByFile_eq_some_iff.1 hfs
    exact FunctionGraph.pairwise_sortByLine (hordered.filter _)
  case flatMap_perm =>
    refine flatMap_functionsByFile_perm (hident.imp fun hne heq => hne ?_)
    rw [heq]
  case nodup => exact List.pairwise_map.2 hident

/-- Functions of a unit that was read are grouped by the names of the files that declare them. No
group is lost when symbols are replaced by names. -/
theorem functionsBySource_faithful (h : ReadFrom notes c) :
    c.functionsBySource = c.functionsByFile ∧ c.GroupsFunctions c.functionsByFile := by
  have hknows : ∀ f ∈ c.functionList, c.symbols.Knows f.source := fun f hf =>
    h.knows f hf f.source (.inl rfl)
  exact ⟨functionsBySource_eq hknows, groupsFunctions hknows h.pairwise_functionList⟩

/-- The functions of `a` are listed by line, and that of `b` in a list of its own. -/
theorem functionsBySource_faithful_sample : ∃ c log,
    read samplePaths (Writer.notesFile .little ⟨0⟩ 5 sampleSources true)
        (some (Writer.dataFile .little ⟨0⟩ 5 sampleCounts true)) [] = .ok c log ∧
      c.functionsBySource = c.functionsByFile ∧ c.GroupsFunctions c.functionsByFile ∧
      c.functionsBySource["a"]?.map (List.map fun f => f.ident) = some [⟨8⟩, ⟨7⟩] ∧
      c.functionsBySource["b"]?.map (List.map fun f => f.ident) = some [⟨9⟩] := by
  obtain ⟨c, log, hread, hreports⟩ := exists_read_sampleSources
  obtain ⟨heq, hgroups⟩ := functionsBySource_faithful (.bytes hread)
  have hidents (name : String) : c.functionsBySource[name]?.map (List.map fun f => f.ident) =
      (FunctionGraph.Named.byFile
        (c.functionList.map (FunctionGraph.named c.symbols)))[name]?.map
          (List.map fun x => x.rest.ident) := by
    rw [heq, ← nameGroups_functionsByFile, nameGroups, Std.ExtTreeMap.getElem?_map, Option.map_map]
    simp only [Function.comp_def, List.map_map]
    rfl
  exact ⟨c, log, hread, heq, hgroups, (hidents "a").trans hreports.groupA,
    (hidents "b").trans hreports.groupB⟩

end Coverage

end CoverageFlow
