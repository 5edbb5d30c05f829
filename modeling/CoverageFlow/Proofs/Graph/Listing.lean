import CoverageFlow.Proofs.Graph.Attributes
import CoverageFlow.Proofs.Graph.Snapshot

/-!
# Arcs by block and lines by file

Reports list the arcs of a function twice, block by block: those that leave a block are listed with
it, and so are those that enter it. Both views have every arc once, whatever the graph: a loop is in
both lists of its block, and parallel arcs differ in their number only. Merging counts changes what
is known of an arc and never where it is listed.

A snapshot lists the lines of a block by the names of their files. Files are kept by their symbols,
so no name comes twice as long as every symbol is known.

## Main definitions

* `FunctionGraph.countedArc`: an arc as the notes file states it, with its count.
* `Json.field?`, `Json.items`, `Json.keys`, `Json.entries`: what a JSON value is read as.
* `FunctionGraph.SnapshotLists`: what a snapshot lists.
* `FunctionGraph.ListsOnce`: what reports list of a function.

## Main results

* `pairwise_mergeSort_of_pairwise`: sorting is stable.
* `FunctionGraph.flatMap_arcsOn_perm`: block by block, every arc is listed once.
* `FunctionGraph.snapshotLists`: a snapshot loses no arc and no line, and repeats none.
* `FunctionGraph.listsOnce`: nor do the reports about a function, whatever was merged into it.
-/

namespace CoverageFlow

/-! ### Stable sorting -/

/-- Sorted elements are in order, and those that the order does not tell apart come as they came
before. -/
theorem pairwise_mergeSort_of_pairwise {α : Type} {le : α → α → Bool} {r : α → α → Prop}
    (trans : ∀ a b c, le a b = true → le b c = true → le a c = true)
    (total : ∀ a b, (le a b || le b a) = true) {l : List α} (h : l.Pairwise r) :
    (l.mergeSort le).Pairwise fun a b => le a b = true ∧ (le b a = true → r a b) := by
  induction l with
  | nil =>
    rw [List.mergeSort_nil]
    exact .nil
  | cons a l ih =>
    -- The first element is put behind those before which it must not stand.
    obtain ⟨before, after, hsort, hrest, hbefore⟩ := List.mergeSort_cons trans total a l
    obtain ⟨ha, hl⟩ := List.pairwise_cons.1 h
    have hordered := List.pairwise_mergeSort trans total (a :: l)
    rw [hsort, List.pairwise_append, List.pairwise_cons] at hordered
    have ih := ih hl
    rw [hrest, List.pairwise_append] at ih
    obtain ⟨-, ⟨hafter, -⟩, hcross⟩ := hordered
    rw [hsort, List.pairwise_append, List.pairwise_cons]
    refine ⟨ih.1, ⟨fun b hb => ⟨hafter b hb, fun _ => ha b ?_⟩, ih.2.1⟩, fun b hb => ?_⟩
    · have hperm := List.mergeSort_perm l le
      rw [hrest] at hperm
      exact hperm.subset (List.mem_append_right _ hb)
    · refine List.forall_mem_cons.2 ⟨⟨hcross b hb a List.mem_cons_self, fun hle => ?_⟩,
        ih.2.2 b hb⟩
      have hnot := hbefore b hb
      rw [hle] at hnot
      cases hnot

namespace FunctionGraph

variable {f : FunctionGraph} {d : Direction} {b : Fin f.size} {i : Fin f.numArcs}

/-! ### Arcs by block -/

theorem mem_arcsOn : i ∈ f.arcsOn d b ↔ (f.arcs.get i).near d = b := by
  simp [arcsOn]

theorem nodup_arcsOn (f : FunctionGraph) (d : Direction) (b : Fin f.size) :
    (f.arcsOn d b).Nodup :=
  (List.mergeSort_perm _ _).nodup_iff.2
    ((List.nodup_reverse.2 (List.nodup_finRange _)).filter _)

/-- The arcs on one side of a block are ordered by their other ends, and parallel arcs come with the
last one first. -/
theorem pairwise_arcsOn (f : FunctionGraph) (d : Direction) (b : Fin f.size) :
    (f.arcsOn d b).Pairwise fun i j => (f.arcs.get i).far d < (f.arcs.get j).far d ∨
      (f.arcs.get i).far d = (f.arcs.get j).far d ∧ j < i := by
  have hlast : (List.finRange f.numArcs).reverse.Pairwise fun i j => j < i :=
    List.pairwise_reverse.2 (List.pairwise_lt_finRange _)
  refine (pairwise_mergeSort_of_pairwise ?_ ?_ (hlast.filter _)).imp ?_
  · intro i j k hij hjk
    exact decide_eq_true ((of_decide_eq_true hij).trans (of_decide_eq_true hjk))
  · intro i j
    rw [Bool.or_eq_true, decide_eq_true_eq, decide_eq_true_eq]
    exact Nat.le_total _ _
  · rintro i j ⟨hle, hstable⟩
    obtain hlt | heq := (Fin.le_def.2 (of_decide_eq_true hle)).lt_or_eq
    · exact .inl hlt
    · exact .inr ⟨heq, hstable (decide_eq_true (Fin.le_def.1 heq.ge))⟩

/-- Block by block, every arc is listed once. -/
theorem flatMap_arcsOn_perm (f : FunctionGraph) (d : Direction) :
    ((List.finRange f.size).flatMap (f.arcsOn d)).Perm (List.finRange f.numArcs) := by
  have hnodup : ((List.finRange f.size).flatMap (f.arcsOn d)).Nodup := by
    refine List.nodup_flatMap.2 ⟨fun b _ => f.nodup_arcsOn d b, ?_⟩
    -- An arc has one end on the side, so it is on that side of one block only.
    refine (List.nodup_finRange _).imp fun {b b'} hne i hb hb' => hne ?_
    exact (mem_arcsOn.1 hb).symm.trans (mem_arcsOn.1 hb')
  refine (List.perm_ext_iff_of_nodup hnodup (List.nodup_finRange _)).2 fun i => ?_
  refine iff_of_true (List.mem_flatMap.2 ?_) (List.mem_finRange i)
  exact ⟨(f.arcs.get i).near d, List.mem_finRange _, mem_arcsOn.2 rfl⟩

/-- A number that is no block has no arcs. -/
theorem mem_arcsAt {number : ℕ} (h : number < UInt32.size) :
    i ∈ f.arcsAt d number ↔ ((f.arcs.get i).near d).val = number := by
  rw [arcsAt, block?, Nat.mod_eq_of_lt h]
  by_cases hnumber : number < f.size
  · simp [hnumber, mem_arcsOn, Fin.ext_iff]
  · have hne : ((f.arcs.get i).near d).val ≠ number := fun heq =>
      hnumber (heq ▸ ((f.arcs.get i).near d).isLt)
    simp [hnumber, hne]

/-- An arc as the notes file states it, with what is known of its count. -/
def countedArc (f : FunctionGraph) (i : Fin f.numArcs) : StatedArc × Option Count :=
  ((f.arcs.get i).stated, f.counts.arcs.get i)

/-- All arcs are those that the records list. -/
theorem map_countedArc {record : FunctionRecord Symbol}
    (h : f.arcs.toList.map Arc.stated = record.statedArcs) :
    (List.finRange f.numArcs).map f.countedArc = record.statedArcs.zip f.counts.arcs.toList := by
  rw [← h, toList_eq_map_get, toList_eq_map_get, List.map_map, List.zip_map']
  rfl

end FunctionGraph

/-! ### Snapshots -/

namespace Json

/-- The value of a field of an object. -/
def field? (key : String) : Json → Option Json
  | .obj fields => fields.lookup key
  | _ => none

/-- The items of a list. -/
def items : Json → List Json
  | .arr items => items
  | _ => []

/-- The names of the fields of an object. -/
def keys : Json → List String
  | .obj fields => fields.map Prod.fst
  | _ => []

/-- The items of the lists in an object, with the names of their fields. -/
def entries : Json → List (String × Json)
  | .obj fields => fields.flatMap fun field => field.2.items.map fun item => (field.1, item)
  | _ => []

end Json

namespace LineMap

variable {lines : LineMap} {t : SymbolTable}

/-- No line of a block is listed twice. -/
theorem nodup_pairs (lines : LineMap) : lines.pairs.Nodup :=
  nodup_flatMap_toList lines

/-- The lines of a block are written with the names of their files. -/
theorem entries_json (lines : LineMap) (t : SymbolTable) : (lines.json t).entries =
    lines.pairs.map fun spot => (t.name spot.1, .nat spot.2.toNat) := by
  rw [json, Json.entries, pairs, List.flatMap_map, List.map_flatMap]
  simp only [Json.list, Json.items, List.map_map]
  rfl

/-- No two files with lines have the same name. -/
theorem nodup_keys_json (h : ∀ x ∈ lines, t.Knows x) : (lines.json t).keys.Nodup := by
  have hnames := nodup_names h
  rw [List.map_map] at hnames
  rw [json, Json.keys, List.map_map]
  exact hnames

/-- No line is written twice. -/
theorem nodup_entries_json (h : ∀ x ∈ lines, t.Knows x) : (lines.json t).entries.Nodup := by
  rw [entries_json]
  refine lines.nodup_pairs.map_on fun spot hspot spot' hspot' heq => ?_
  obtain ⟨hname, hline⟩ := Prod.mk.inj heq
  refine Prod.ext ?_ (UInt32.toNat_inj.1 (Int.ofNat.inj (Json.num.inj hline)))
  exact (h _ (mem_of_mem_pairs hspot)).name_inj (h _ (mem_of_mem_pairs hspot')) hname

end LineMap

namespace FunctionGraph

variable {f f₀ : FunctionGraph} {t : SymbolTable} {record : FunctionRecord Symbol}

/-- What a snapshot lists: blocks and arcs in order, and the lines of every block. -/
structure SnapshotLists (f : FunctionGraph) (t : SymbolTable) : Prop where
  /-- There is one value for each block, in the order of their numbers. -/
  blocks : (f.json t).field? "blocks" = some (.list (f.blockJson t) (List.finRange f.size))
  index : ∀ b, (f.blockJson t b).field? "index" = some (.nat b)
  /-- There is one value for each arc, listed with the block that it leaves. -/
  arcs : (f.json t).field? "arcs" =
    some (.arr ((List.finRange f.size).flatMap fun b => (f.arcsLeaving b).map f.arcJson))
  /-- The lines of a block have the names of their files, each of which comes once. -/
  lines : ∀ b, ∃ lines, (f.blockJson t b).field? "lines" = some lines ∧ lines.keys.Nodup ∧
    lines.entries.Nodup ∧ lines.entries.map (fun entry => (some entry.1, entry.2)) =
      (f.blocks.get b).lines.pairs.map fun spot => (t.resolve? spot.1, .nat spot.2.toNat)

/-- A snapshot loses no arc and no line, and repeats none. -/
theorem snapshotLists (h : ∀ x, f.Mentions x → t.Knows x) : f.SnapshotLists t where
  blocks := rfl
  index _ := rfl
  arcs := congrArg (fun items => some (Json.arr items)) List.map_flatMap
  lines b := by
    have hlines : ∀ x ∈ (f.blocks.get b).lines, t.Knows x := fun x hx => h x (.inr ⟨b, hx⟩)
    refine ⟨(f.blocks.get b).lines.json t, rfl, LineMap.nodup_keys_json hlines,
      LineMap.nodup_entries_json hlines, ?_⟩
    rw [LineMap.entries_json, List.map_map]
    refine List.map_congr_left fun spot hspot => ?_
    obtain ⟨name, hname⟩ := hlines _ (LineMap.mem_of_mem_pairs hspot)
    rw [Function.comp_apply, SymbolTable.name, hname]
    rfl

/-- Reports list every arc and every line of a function once. -/
structure ListsOnce (f : FunctionGraph) (record : FunctionRecord Symbol) : Prop where
  /-- Block by block, all arcs are listed, none of them twice. -/
  perm : ∀ d, ((List.finRange f.size).flatMap (f.arcsOn d)).Perm (List.finRange f.numArcs)
  numArcs : f.numArcs = record.statedArcs.length
  /-- They are the arcs of the records, with what is known of their counts. -/
  counted : ∀ d, (((List.finRange f.size).flatMap (f.arcsOn d)).map f.countedArc).Perm
    (record.statedArcs.zip f.counts.arcs.toList)
  /-- An arc is listed among those that leave its source, and with no other block. -/
  mem_arcsLeaving : ∀ b i, i ∈ f.arcsLeaving b ↔ (f.arcs.get i).source = b
  /-- It is listed among those that enter its target, and with no other block. -/
  mem_arcsEntering : ∀ b i, i ∈ f.arcsEntering b ↔ (f.arcs.get i).target = b
  /-- So it is if blocks are given by their numbers. -/
  mem_arcsAt : ∀ d i number, number < UInt32.size →
    (i ∈ f.arcsAt d number ↔ ((f.arcs.get i).near d).val = number)
  /-- Lists are ordered by the other ends, and parallel arcs come with the last one first. -/
  pairwise : ∀ d b, (f.arcsOn d b).Pairwise fun i j =>
    (f.arcs.get i).far d < (f.arcs.get j).far d ∨
      (f.arcs.get i).far d = (f.arcs.get j).far d ∧ j < i
  /-- A snapshot lists the same, if every file has a name. -/
  snapshot : ∀ t : SymbolTable, (∀ x, record.Mentions x → t.Knows x) → f.SnapshotLists t

/-- No report loses or repeats an arc or a line of a function, whatever was merged into it. -/
theorem listsOnce (h : ofRecord record = .ok f₀) (calls : List FunctionData) :
    (f₀.after calls).ListsOnce record := by
  obtain ⟨counts, merged, statistics, hafter⟩ := f₀.after_eq calls
  have hlists := lists_of_ofRecord h
  have harcs : (f₀.after calls).arcs.toList.map Arc.stated = record.statedArcs := by
    rw [hafter]
    exact hlists.arcs
  have hmentions : ∀ x, (f₀.after calls).Mentions x → record.Mentions x := by
    rw [hafter]
    exact fun x hx => mentions_of_ofRecord h hx
  exact {
    perm := flatMap_arcsOn_perm _
    numArcs := by rw [← harcs, List.length_map, Vector.length_toList]
    counted := fun d => by
      rw [← map_countedArc harcs]
      exact (flatMap_arcsOn_perm _ d).map _
    mem_arcsLeaving := fun _ _ => mem_arcsOn
    mem_arcsEntering := fun _ _ => mem_arcsOn
    mem_arcsAt := fun _ _ _ => mem_arcsAt
    pairwise := pairwise_arcsOn _
    snapshot := fun t ht => snapshotLists fun x hx => ht x (hmentions x hx) }

/-- A function with a loop, two parallel arcs, and lines of two files in one block. -/
def loopRecord : FunctionRecord Symbol where
  ident := ⟨1⟩
  checksum := 0
  name := "f"
  source := ⟨0⟩
  line := 1
  blocks := [0, 0, 0]
  arcs := [⟨⟨0⟩, [⟨⟨1⟩, 4⟩]⟩, ⟨⟨1⟩, [⟨⟨2⟩, 1⟩, ⟨⟨1⟩, 0⟩, ⟨⟨2⟩, 4⟩]⟩]
  lines := [⟨⟨1⟩, [.number 3, .file ⟨1⟩, .number 3, .file ⟨0⟩, .number 2]⟩]

/-- The loop leaves and enters its block. Both views list the last of the parallel arcs first. -/
theorem listsOnce_loop : ∃ f, ofRecord loopRecord = .ok f ∧
    (f.after [⟨⟨1⟩, 0, [5, 7, 4]⟩]).ListsOnce loopRecord ∧
    (f.after [⟨⟨1⟩, 0, [5, 7, 4]⟩]).isComplete = true ∧
    (List.finRange f.size).map (fun b => (f.arcsLeaving b).map Fin.val) = [[0], [2, 3, 1], []] ∧
    (List.finRange f.size).map (fun b => (f.arcsEntering b).map Fin.val) =
      [[], [0, 2], [3, 1]] := by
  obtain ⟨f, hf, hcomplete, hleaving, hentering⟩ : ∃ f, ofRecord loopRecord = .ok f ∧
      (f.after [⟨⟨1⟩, 0, [5, 7, 4]⟩]).isComplete = true ∧
      (List.finRange f.size).map (fun b => (f.arcsLeaving b).map Fin.val) = [[0], [2, 3, 1], []] ∧
      (List.finRange f.size).map (fun b => (f.arcsEntering b).map Fin.val) =
        [[], [0, 2], [3, 1]] := ⟨_, by cbv, by cbv, by cbv, by cbv⟩
  exact ⟨f, hf, listsOnce hf _, hcomplete, hleaving, hentering⟩

end FunctionGraph

end CoverageFlow
