import CoverageFlow.Graph.Snapshot
import CoverageFlow.Proofs.Graph.Names

/-!
# Snapshots as values

The text of a snapshot lists the files of a block in the order of their symbols, which depends on
what was pooled before. As a JSON value a snapshot does not: the fields of an object have no order.
Values are compared by a normal form, in which the fields of every object are sorted by name.

## Main definitions

* `Json.normal`: the normal form of a JSON value.

## Main results

* `Json.normal_obj_of_perm`: the order of fields does not matter.
* `FunctionGraph.normal_json_congr`: a snapshot is determined by the graph with names for symbols.
-/

namespace CoverageFlow

/-! ### The normal form of a value -/

namespace Json

mutual

/-- The value with the fields of every object sorted by name. Of several fields with one name the
last counts. -/
def normal : Json → Json
  | .null => .null
  | .bool value => .bool value
  | .num value => .num value
  | .str value => .str value
  | .arr items => .arr (normalItems items)
  | .obj fields => .obj (Std.ExtTreeMap.ofList (normalFields fields) compare).toList

/-- The normal forms of the items of a list. -/
def normalItems : List Json → List Json
  | [] => []
  | item :: items => normal item :: normalItems items

/-- The fields of an object with the normal forms of their values. -/
def normalFields : List (String × Json) → List (String × Json)
  | [] => []
  | (key, value) :: fields => (key, normal value) :: normalFields fields

end

theorem normalItems_eq_map (items : List Json) : normalItems items = items.map normal := by
  induction items with
  | nil => rfl
  | cons item items ih => rw [normalItems, ih, List.map_cons]

theorem normalFields_eq_map (fields : List (String × Json)) :
    normalFields fields = fields.map fun field => (field.1, field.2.normal) := by
  induction fields with
  | nil => rfl
  | cons field fields ih => rw [normalFields, ih, List.map_cons]

theorem normal_arr (items : List Json) : (arr items).normal = .arr (items.map normal) := by
  rw [normal, normalItems_eq_map]

theorem normal_obj (fields : List (String × Json)) : (obj fields).normal =
    .obj (Std.ExtTreeMap.ofList (fields.map fun field => (field.1, field.2.normal))
      compare).toList := by
  rw [normal, normalFields_eq_map]

theorem normal_list {α : Type} (write : α → Json) (items : List α) :
    (list write items).normal = list (fun a => (write a).normal) items := by
  rw [list, normal_arr, List.map_map]
  rfl

theorem normal_obj_congr {fields fields' : List (String × Json)}
    (h : fields.map (fun field => (field.1, field.2.normal)) =
      fields'.map fun field => (field.1, field.2.normal)) :
    (obj fields).normal = (obj fields').normal := by
  rw [normal_obj, normal_obj, h]

/-- Objects that list the same fields in another order are the same value. -/
theorem normal_obj_of_perm {fields fields' : List (String × Json)} (h : fields.Perm fields')
    (hnodup : (fields.map Prod.fst).Nodup) : (obj fields).normal = (obj fields').normal := by
  have hfst (fields : List (String × Json)) :
      (fields.map fun field => (field.1, field.2.normal)).map Prod.fst = fields.map Prod.fst := by
    rw [List.map_map]
    rfl
  have hnodup' := (h.map Prod.fst).nodup_iff.1 hnodup
  rw [← hfst] at hnodup hnodup'
  rw [normal_obj, normal_obj]
  congr 2
  exact Std.ExtTreeMap.ext_toList (((toList_ofList_perm hnodup).trans (h.map _)).trans
    (toList_ofList_perm hnodup').symm)

end Json

/-! ### Snapshots of functions -/

namespace LineMap

variable {t t' : SymbolTable} {lines lines' : LineMap}

/-- The lines of a block as a value tell the names of files, and no symbols. -/
theorem normal_json_congr (h : lines.named t = lines'.named t') :
    (lines.json t).normal = (lines'.json t').normal := by
  have hmap (t : SymbolTable) (lines : LineMap) : (lines.json t).normal =
      .obj ((lines.named t).map fun _ numbers =>
        (Json.list (fun line => .nat line.toNat) numbers.toList).normal).toList := by
    rw [json, Json.normal_obj, named, ← ofList_map, List.map_map, List.map_map]
    rfl
  rw [hmap, hmap, h]

end LineMap

namespace FunctionGraph

variable {f f' : FunctionGraph} {t t' : SymbolTable}

/-- Graphs that are the same with names for symbols differ in the symbols only. -/
theorem exists_of_named_eq (h : f.named t = f'.named t') : ∃ source blocks,
    f' = { f with source, blocks } ∧ t.name f.source = t'.name source ∧
      ∀ b, (f.blocks.get b).withoutLines = (blocks.get b).withoutLines ∧
        (f.blocks.get b).lines.named t = (blocks.get b).lines.named t' := by
  obtain ⟨⟨ident, checksum, name, source, line⟩, size, numArcs, two_le, blocks, arcs, counts,
    merged, statistics⟩ := f
  obtain ⟨⟨ident', checksum', name', source', line'⟩, size', numArcs', two_le', blocks', arcs',
    counts', merged', statistics'⟩ := f'
  injection h with hsource hlines hrest
  simp only [withoutFiles, FunctionGraph.mk.injEq, Announcement.mk.injEq] at hrest
  obtain ⟨⟨rfl, rfl, rfl, -, rfl⟩, rfl, rfl, hblocks, rfl, rfl, rfl, rfl⟩ := hrest
  refine ⟨source', blocks', rfl, hsource, fun b => ⟨?_, congrFun (List.ofFn_injective hlines) b⟩⟩
  have hget := congrArg (fun v => v.get b) (eq_of_heq hblocks)
  simpa only [get_eq_getElem, Vector.getElem_map] using hget

theorem normal_blockJson_congr (source : Symbol) {blocks : Vector Block f.size} {b : Fin f.size}
    (hrest : (f.blocks.get b).withoutLines = (blocks.get b).withoutLines)
    (hlines : (f.blocks.get b).lines.named t = (blocks.get b).lines.named t') :
    (f.blockJson t b).normal =
      (FunctionGraph.blockJson t' { f with source, blocks } b).normal := by
  injection hrest with hflags hattr
  rw [blockJson, blockJson, hflags, hattr]
  refine Json.normal_obj_congr ?_
  simp only [List.map_cons, LineMap.normal_json_congr hlines]

/-- A snapshot is determined by the graph with names for symbols. -/
theorem normal_json_congr (h : f.named t = f'.named t') :
    (f.json t).normal = (f'.json t').normal := by
  obtain ⟨source, blocks, rfl, hsource, hblocks⟩ := exists_of_named_eq h
  rw [json, json, hsource]
  refine Json.normal_obj_congr ?_
  simp only [List.map_cons, Json.normal_list]
  simp only [fun b => normal_blockJson_congr source (hblocks b).1 (hblocks b).2]
  rfl

end FunctionGraph

end CoverageFlow
