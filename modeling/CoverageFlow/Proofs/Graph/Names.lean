import CoverageFlow.Proofs.Graph.LifeCycle
import CoverageFlow.Proofs.Graph.Safety

/-!
# Graphs with names for symbols

The number of a symbol depends on what was pooled before it, so graphs from different files are
compared with the names of their files in place of the symbols. A graph then consists of the name
of the file that declares the function, the lines of each block by the names of their files, and
the rest, which knows no files.

All of this is determined by the records of the function with names in place of symbols. The rest
is built from the records without any files, and the lines of a block are those that its own records
state. Merging counts does not look at files.

## Main definitions

* `NamedLines`, `LineMap.named`: the lines of each file, by the file's name.
* `FunctionGraph.withoutFiles`: a graph without the files of its lines.
* `FunctionGraph.Named`, `FunctionGraph.named`: a graph with names for symbols.

## Main results

* `LineMap.named_record`: recording lines and naming their files commute.
* `FunctionGraph.ofRecord_withoutFiles`: so do building a graph and leaving out its files.
* `FunctionGraph.named_eq_of_ofRecord`: a named graph is determined by the named records.
* `FunctionGraph.named_afterMerge`: merging does not look at files.
-/

namespace CoverageFlow

variable {n : ℕ}

/-! ### Maps from lists -/

section Maps

variable {α β γ : Type} [Ord α] [Std.TransOrd α] [Std.LawfulEqOrd α]
  {l : List (α × β)} {k : α} {v : β}

theorem nodup_fst_toList (m : Std.ExtTreeMap α β) : (m.toList.map Prod.fst).Nodup := by
  rw [List.Nodup, List.pairwise_map]
  refine m.distinct_keys_toList.imp fun hne heq => hne ?_
  rw [heq]
  exact Std.ReflOrd.compare_self

/-- No member of a set is listed twice with the key of the set. -/
theorem nodup_flatMap_toList [Ord β] [Std.TransOrd β] [Std.LawfulEqOrd β]
    (m : Std.ExtTreeMap α (Std.ExtTreeSet β)) :
    (m.toList.flatMap fun entry => entry.2.toList.map fun b => (entry.1, b)).Nodup := by
  refine List.nodup_flatMap.2 ⟨fun entry _ => ?_, ?_⟩
  · refine List.Nodup.map (fun _ _ h => (Prod.mk.inj h).2) ?_
    refine entry.2.distinct_toList.imp fun hne heq => hne ?_
    rw [heq]
    exact Std.ReflOrd.compare_self
  · refine (List.pairwise_map.1 (nodup_fst_toList m)).imp fun hne spot hspot hspot' => hne ?_
    obtain ⟨_, -, rfl⟩ := List.mem_map.1 hspot
    obtain ⟨_, -, h⟩ := List.mem_map.1 hspot'
    exact (Prod.mk.inj h).1.symm

/-- Entries with different keys are all found again. -/
theorem getElem?_ofList_of_mem (h : (l.map Prod.fst).Nodup) (hmem : (k, v) ∈ l) :
    (Std.ExtTreeMap.ofList l compare)[k]? = some v := by
  refine Std.ExtTreeMap.getElem?_ofList_of_mem Std.ReflOrd.compare_self ?_ hmem
  exact (List.pairwise_map.1 h).imp fun hne heq => hne (Std.LawfulEqOrd.eq_of_compare heq)

theorem getElem?_ofList_of_not_mem (h : k ∉ l.map Prod.fst) :
    (Std.ExtTreeMap.ofList l compare)[k]? = none := by
  classical
  exact Std.ExtTreeMap.getElem?_ofList_of_contains_eq_false
    (Bool.eq_false_iff.2 fun hmem => h (List.contains_iff_mem.1 hmem))

/-- Entries with different keys are the entries of their map, in some order. -/
theorem toList_ofList_perm (h : (l.map Prod.fst).Nodup) :
    (Std.ExtTreeMap.ofList l compare).toList.Perm l := by
  refine (List.perm_ext_iff_of_nodup (.of_map _ (nodup_fst_toList _)) (.of_map _ h)).2 ?_
  rintro ⟨k, v⟩
  rw [Std.ExtTreeMap.mem_toList_iff_getElem?_eq_some]
  refine ⟨fun hk => ?_, getElem?_ofList_of_mem h⟩
  have hkey : k ∈ l.map Prod.fst := by
    by_contra hnot
    rw [getElem?_ofList_of_not_mem hnot] at hk
    cases hk
  obtain ⟨⟨_, v'⟩, hmem, rfl⟩ := List.mem_map.1 hkey
  rw [getElem?_ofList_of_mem h hmem] at hk
  exact Option.some.inj hk ▸ hmem

/-- Values can be changed before or after the map is made. -/
theorem ofList_map (l : List (α × β)) (g : β → γ) :
    Std.ExtTreeMap.ofList (l.map fun entry => (entry.1, g entry.2)) compare =
      (Std.ExtTreeMap.ofList l compare).map fun _ => g := by
  have hfold (m : Std.ExtTreeMap α β) : (l.map fun entry => (entry.1, g entry.2)).foldl
      (fun m entry => m.insert entry.1 entry.2) (m.map fun _ => g) =
        (l.foldl (fun m entry => m.insert entry.1 entry.2) m).map fun _ => g := by
    induction l generalizing m with
    | nil => rfl
    | cons entry l ih =>
      rw [List.map_cons, List.foldl_cons, List.foldl_cons, ← ih]
      congr 1
      refine Std.ExtTreeMap.ext_getElem? fun {k} => ?_
      simp only [Std.ExtTreeMap.getElem?_insert, Std.ExtTreeMap.getElem?_map]
      split <;> rfl
  rw [Std.ExtTreeMap.ofList_eq_foldl, Std.ExtTreeMap.ofList_eq_foldl, ← hfold]
  congr 1

end Maps

/-! ### Names of symbols -/

namespace SymbolTable

variable {t : SymbolTable} {x y : Symbol}

/-- Known symbols with the same name are the same. -/
theorem Knows.name_inj (hx : t.Knows x) (hy : t.Knows y) (h : t.name x = t.name y) : x = y := by
  obtain ⟨s, hs⟩ := hx
  obtain ⟨s', hs'⟩ := hy
  rw [name, name, hs, hs'] at h
  cases h
  exact resolve?_inj hs hs'

end SymbolTable

/-! ### Lines -/

/-- The lines of each source file, by the file's name. -/
abbrev NamedLines : Type := Std.ExtTreeMap String (Std.ExtTreeSet UInt32)

namespace NamedLines

/-- Adds a line of a file. -/
def insert (lines : NamedLines) (file : String) (line : UInt32) : NamedLines :=
  Std.ExtTreeMap.insert lines file ((lines.getD file ∅).insert line)

/-- Adds the lines that entries state. The lines before the first file name belong to `file`. -/
def record (lines : NamedLines) (file : String) : List (Line String) → NamedLines
  | [] => lines
  | .file file :: items => record lines file items
  | .number line :: items => record (lines.insert file line) file items

end NamedLines

namespace LineMap

variable {t : SymbolTable} {lines : LineMap} {file : Symbol} {name : String}

/-- The lines of each file, by the file's name. -/
def named (t : SymbolTable) (lines : LineMap) : NamedLines :=
  .ofList (lines.toList.map fun entry => (t.name entry.1, entry.2)) compare

theorem nodup_names (h : ∀ x ∈ lines, t.Knows x) :
    ((lines.toList.map fun entry => (t.name entry.1, entry.2)).map Prod.fst).Nodup := by
  rw [List.map_map, List.Nodup, List.pairwise_map]
  refine (List.pairwise_map.1 (nodup_fst_toList lines)).imp_of_mem fun hx hy hne heq => hne ?_
  exact (h _ (mem_of_mem_toList hx)).name_inj (h _ (mem_of_mem_toList hy)) heq

/-- Lines are found by the names of their files. -/
theorem getElem?_named (h : ∀ x ∈ lines, t.Knows x) (hfile : t.Knows file) :
    (lines.named t)[t.name file]? = lines[file]? := by
  cases hlines : lines[file]? with
  | some numbers =>
    refine getElem?_ofList_of_mem (nodup_names h) (List.mem_map.2 ⟨(file, numbers), ?_, rfl⟩)
    exact Std.ExtTreeMap.mem_toList_iff_getElem?_eq_some.2 hlines
  | none =>
    refine getElem?_ofList_of_not_mem fun hmem => ?_
    rw [List.map_map] at hmem
    obtain ⟨⟨x, numbers⟩, hx, hname⟩ := List.mem_map.1 hmem
    obtain rfl := (h x (mem_of_mem_toList hx)).name_inj hfile hname
    rw [Std.ExtTreeMap.mem_toList_iff_getElem?_eq_some.1 hx] at hlines
    cases hlines

/-- Nothing is found by a name that no file has. -/
theorem getElem?_named_eq_none (h : ∀ x ∈ lines, t.name x ≠ name) :
    (lines.named t)[name]? = none := by
  refine getElem?_ofList_of_not_mem fun hmem => ?_
  rw [List.map_map] at hmem
  obtain ⟨⟨x, numbers⟩, hx, hname⟩ := List.mem_map.1 hmem
  exact h x (mem_of_mem_toList hx) hname

theorem named_empty (t : SymbolTable) : named t ∅ = ∅ := by
  rw [named, Std.ExtTreeMap.toList_eq_nil_iff.2 rfl]
  rfl

theorem knows_insert (h : ∀ x ∈ lines, t.Knows x) (hfile : t.Knows file) (line : UInt32) :
    ∀ x ∈ lines.insert file line, t.Knows x := by
  intro x hx
  obtain rfl | hx := mem_insert.1 hx
  · exact hfile
  · exact h x hx

/-- Adding a line and naming its file commute. -/
theorem named_insert (h : ∀ x ∈ lines, t.Knows x) (hfile : t.Knows file) (line : UInt32) :
    (lines.insert file line).named t = (lines.named t).insert (t.name file) line := by
  have hinsert := knows_insert h hfile line
  refine Std.ExtTreeMap.ext_getElem? fun {name} => ?_
  rw [NamedLines.insert, Std.ExtTreeMap.getElem?_insert, Std.ExtTreeMap.getD_eq_getD_getElem?,
    getElem?_named h hfile]
  by_cases hname : ∃ x, t.Knows x ∧ t.name x = name
  · obtain ⟨x, hx, rfl⟩ := hname
    rw [getElem?_named hinsert hx, getElem?_named h hx, insert, Std.ExtTreeMap.getElem?_insert,
      Std.ExtTreeMap.getD_eq_getD_getElem?]
    simp only [Std.LawfulEqOrd.compare_eq_iff_eq]
    refine if_congr ⟨congrArg t.name, hfile.name_inj hx⟩ rfl rfl
  · rw [getElem?_named_eq_none fun x hx heq => hname ⟨x, hinsert x hx, heq⟩,
      getElem?_named_eq_none fun x hx heq => hname ⟨x, h x hx, heq⟩, if_neg]
    exact fun heq => hname ⟨file, hfile, Std.LawfulEqOrd.eq_of_compare heq⟩

/-- Recording lines and naming their files commute. -/
theorem named_record {items : List (Line Symbol)} (h : ∀ x ∈ lines, t.Knows x)
    (hfile : t.Knows file) (hitems : ∀ x, .file x ∈ items → t.Knows x) :
    (lines.record file items).named t =
      (lines.named t).record (t.name file) (items.map (Line.mapFiles t.name)) := by
  induction items generalizing lines file with
  | nil => rfl
  | cons item items ih =>
    have hrest x (hx : .file x ∈ items) := hitems x (List.mem_cons_of_mem _ hx)
    cases item with
    | file file' => exact ih h (hitems file' List.mem_cons_self) hrest
    | number line =>
      refine (ih (knows_insert h hfile line) hfile hrest).trans ?_
      rw [named_insert h hfile]
      rfl

end LineMap

/-! ### Graphs without files -/

/-- A block without its lines. -/
def Block.withoutLines (block : Block) : Block :=
  { block with lines := ∅ }

theorem Block.withoutLines_of_eq_empty {block : Block} (h : block.lines = ∅) :
    block.withoutLines = block := by
  rw [withoutLines, ← h]

/-- What commutes with every step commutes with all of them. -/
theorem foldlM_map {ε α α' β : Type} {f : β → α → Except ε β} {f' : β → α' → Except ε β}
    {g : β → β} (g' : α → α') (h : ∀ b a, (f b a).map g = f' (g b) (g' a)) (as : List α) (b : β) :
    (as.foldlM f b).map g = (as.map g').foldlM f' (g b) := by
  induction as generalizing b with
  | nil => rfl
  | cons a as ih =>
    rw [List.foldlM_cons, List.map_cons, List.foldlM_cons, ← h b a]
    cases f b a with
    | error e => rfl
    | ok b' => exact ih b'

namespace Draft

/-- A draft without its lines. -/
def withoutLines (draft : Draft n) : Draft n :=
  { draft with blocks := draft.blocks.map Block.withoutLines }

theorem get_withoutLines (draft : Draft n) (b : Fin n) :
    draft.withoutLines.blocks.get b = (draft.blocks.get b).withoutLines := by
  rw [get_eq_getElem, get_eq_getElem]
  exact Vector.getElem_map ..

theorem mark_withoutLines (change : BlockAttributes → BlockAttributes) (blocks : Vector Block n)
    (b : Fin n) : (mark change blocks b).map Block.withoutLines =
      mark change (blocks.map Block.withoutLines) b := by
  rw [mark, mark, Vector.map_set]
  congr 1
  rw [get_eq_getElem, get_eq_getElem, Vector.getElem_map]
  rfl

theorem connect_withoutLines (draft : Draft n) (source target : Fin n) (attr : ArcAttributes) :
    (draft.connect source target attr).withoutLines =
      draft.withoutLines.connect source target attr := by
  rw [connect, connect]
  split
  · rfl
  · split
    · exact congrArg (Draft.mk · _) (mark_withoutLines ..)
    · exact congrArg (Draft.mk · _) (mark_withoutLines ..)

theorem connectAll_withoutLines (draft : Draft n) (record : ArcsRecord) :
    (draft.connectAll record).map withoutLines = draft.withoutLines.connectAll record := by
  rw [connectAll, connectAll]
  cases block n record.source with
  | error e => rfl
  | ok source =>
    refine (foldlM_map id (fun draft arc => ?_) record.arcs draft).trans
      (by rw [List.map_id]; rfl)
    rw [id_eq]
    cases block n arc.target with
    | error e => rfl
    | ok target => exact congrArg Except.ok (connect_withoutLines ..)

end Draft

/-- A record of lines without its entries. -/
def LinesRecord.withoutItems {φ : Type} (record : LinesRecord φ) : LinesRecord Symbol where
  block := record.block
  items := []

/-- The records of a function without any file. -/
def FunctionRecord.withoutFiles {φ : Type} (record : FunctionRecord φ) :
    FunctionRecord Symbol where
  toAnnouncement := record.toAnnouncement.mapFiles fun _ => .unknown
  blocks := record.blocks
  arcs := record.arcs
  lines := record.lines.map LinesRecord.withoutItems

theorem FunctionRecord.withoutFiles_mapFiles {φ ψ : Type} (record : FunctionRecord φ) (f : φ → ψ) :
    (record.mapFiles f).withoutFiles = record.withoutFiles := by
  simp only [withoutFiles, mapFiles, Announcement.mapFiles, List.map_map]
  rfl

namespace Draft

theorem coverLines_withoutLines (file file' : Symbol) (draft : Draft n)
    (record : LinesRecord Symbol) : (draft.coverLines file record).map withoutLines =
      draft.withoutLines.coverLines file' record.withoutItems := by
  rw [coverLines, coverLines, LinesRecord.withoutItems]
  cases block n record.block with
  | error e => rfl
  | ok b =>
    refine congrArg Except.ok (congrArg (Draft.mk · _) ((Vector.map_set (h := b.isLt)).trans ?_))
    rw [get_withoutLines]
    rfl

theorem markCallReturns_withoutLines (draft : Draft n) :
    draft.markCallReturns.withoutLines = draft.withoutLines.markCallReturns := by
  have hfold (arcs : List (Arc n)) (blocks : Vector Block n) :
      (arcs.foldl (fun blocks a => mark ({ · with callReturn := true }) blocks a.target)
        blocks).map Block.withoutLines =
      arcs.foldl (fun blocks a => mark ({ · with callReturn := true }) blocks a.target)
        (blocks.map Block.withoutLines) := by
    induction arcs generalizing blocks with
    | nil => rfl
    | cons a arcs ih => rw [List.foldl_cons, ih, mark_withoutLines, List.foldl_cons]
  rw [markCallReturns, markCallReturns, withoutLines, hfold]
  simp only [get_withoutLines]
  rfl

theorem finish_withoutLines (draft : Draft n) :
    draft.finish.withoutLines = draft.withoutLines.finish :=
  markCallReturns_withoutLines draft.markUnconditional

theorem ofBlocks_withoutLines (flags : List UInt32) :
    (ofBlocks flags).withoutLines = ofBlocks flags := by
  refine congrArg (Draft.mk · _) (Vector.ext fun i hi => ?_)
  have hempty := lines_ofBlocks flags ⟨i, hi⟩
  exact (Vector.getElem_map ..).trans (Block.withoutLines_of_eq_empty hempty)

end Draft

namespace FunctionGraph

/-- A graph without the files of its lines. -/
def withoutFiles (f : FunctionGraph) : FunctionGraph :=
  { f with source := .unknown, blocks := f.blocks.map Block.withoutLines }

theorem build_withoutFiles (record : FunctionRecord Symbol) :
    (build record).map withoutFiles = build record.withoutFiles := by
  have hconnected := foldlM_map id Draft.connectAll_withoutLines record.arcs
    (Draft.ofBlocks record.blocks)
  rw [List.map_id, Draft.ofBlocks_withoutLines] at hconnected
  rw [build, build]
  change Except.map _ (_ >>= _) =
    (record.arcs.foldlM Draft.connectAll (Draft.ofBlocks record.blocks) >>= _)
  cases hdraft : record.arcs.foldlM Draft.connectAll (Draft.ofBlocks record.blocks) with
  | error e => rfl
  | ok connected =>
    rw [hdraft] at hconnected
    have hcovered := foldlM_map LinesRecord.withoutItems
      (Draft.coverLines_withoutLines record.source .unknown) record.lines connected
    rw [Except.ok.inj hconnected] at hcovered
    change Except.map _ (record.lines.foldlM (Draft.coverLines record.source) connected >>= _) =
      ((record.lines.map LinesRecord.withoutItems).foldlM (Draft.coverLines .unknown) connected >>=
        _)
    rw [← hcovered]
    cases record.lines.foldlM (Draft.coverLines record.source) connected with
    | error e => rfl
    | ok covered =>
      change Except.map _ (covered.checkEnds >>= _) = (covered.checkEnds >>= _)
      cases covered.checkEnds with
      | error e => rfl
      | ok ends =>
        exact congrArg (fun draft => Except.ok (ofDraft record.withoutFiles draft ends.down))
          (Draft.finish_withoutLines covered)

/-- Building a graph and leaving out its files commute. -/
theorem ofRecord_withoutFiles (record : FunctionRecord Symbol) :
    (ofRecord record).map withoutFiles = ofRecord record.withoutFiles := by
  rw [ofRecord, ofRecord, ← build_withoutFiles]
  cases build record <;> rfl

end FunctionGraph

/-! ### The lines of a block -/

/-- The lines of a block with a number, as the records of its function state them. -/
def NamedLines.ofRecords (source : String) (records : List (LinesRecord String)) (b : ℕ) :
    NamedLines :=
  (records.filter fun r => r.block.val.toNat = b).foldl
    (fun lines r => lines.record source r.items) ∅

/-- Each block gets the lines of its own records, one after the other. -/
theorem Draft.lines_foldlM_coverLines {file : Symbol} {records : List (LinesRecord Symbol)}
    {draft draft' : Draft n} (h : records.foldlM (coverLines file) draft = .ok draft') (b : Fin n) :
    (draft'.blocks.get b).lines = (records.filter fun r => r.block.val.toNat = b.val).foldl
      (fun lines r => lines.record file r.items) (draft.blocks.get b).lines := by
  induction records generalizing draft with
  | nil =>
    cases h
    rfl
  | cons r records ih =>
    rw [List.foldlM_cons] at h
    obtain ⟨draft₁, hfirst, hrest⟩ := bind_eq_ok.1 h
    obtain ⟨b', hb', hfirst⟩ := bind_eq_ok.1 hfirst
    cases hfirst
    rw [ih hrest, get_set, List.filter_cons, Draft.block_eq_ok_iff.1 hb']
    by_cases hb : b' = b
    · subst hb
      simp
    · simp [hb, Fin.val_inj]

theorem LineMap.named_foldl_record {t : SymbolTable} {file : Symbol} (hfile : t.Knows file)
    {records : List (LinesRecord Symbol)}
    (hrecords : ∀ r ∈ records, ∀ x, .file x ∈ r.items → t.Knows x) {lines : LineMap}
    (h : ∀ x ∈ lines, t.Knows x) :
    (records.foldl (fun lines r => lines.record file r.items) lines).named t =
      (records.map (LinesRecord.mapFiles t.name)).foldl
        (fun lines r => lines.record (t.name file) r.items) (lines.named t) := by
  induction records generalizing lines with
  | nil => rfl
  | cons r records ih =>
    obtain ⟨hr, hrest⟩ := List.forall_mem_cons.1 hrecords
    rw [List.foldl_cons, ih hrest, LineMap.named_record h hfile hr]
    · rfl
    · intro x hx
      obtain hx | rfl | hx := LineMap.mem_record hx
      · exact h x hx
      · exact hfile
      · exact hr x hx

namespace FunctionGraph

variable {f f' : FunctionGraph} {record record' : FunctionRecord Symbol} {t t' : SymbolTable}
  {data : FunctionData}

/-- The lines of a block are those that its records state. -/
theorem lines_of_ofRecord (h : ofRecord record = .ok f) (b : Fin f.size) :
    (f.blocks.get b).lines = (record.lines.filter fun r => r.block.val.toNat = b.val).foldl
      (fun lines r => lines.record record.source r.items) ∅ := by
  obtain ⟨connected, covered, ends, hconnected, hcovered, -, rfl⟩ := ofRecord_eq_ok_iff.1 h
  -- Arcs are added first, while no block has lines.
  have hempty : (connected.blocks.get b).lines = ∅ :=
    foldlM_eq_ok_induction (P := fun d => (d.blocks.get b).lines = ∅) hconnected
      (Draft.lines_ofBlocks _ b) fun _ _ _ _ hd harcs => (Draft.lines_connectAll harcs b).trans hd
  rw [← hempty]
  exact (Draft.lines_finish covered b).trans (Draft.lines_foldlM_coverLines hcovered b)

theorem named_lines_of_ofRecord (h : ofRecord record = .ok f) (hrecord : record.Pooled t)
    (b : Fin f.size) : (f.blocks.get b).lines.named t = .ofRecords (t.name record.source)
      (record.lines.map (LinesRecord.mapFiles t.name)) b := by
  rw [lines_of_ofRecord h, LineMap.named_foldl_record (hrecord.knows _ (.inl rfl)),
    LineMap.named_empty, NamedLines.ofRecords, List.filter_map]
  · rfl
  · intro r hr x hx
    exact hrecord.knows x (.inr ⟨r, List.mem_of_mem_filter hr, hx⟩)
  · exact fun x hx => absurd hx Std.ExtTreeMap.not_mem_empty

/-! ### Named graphs -/

/-- A graph with names for symbols. -/
structure Named where
  /-- The file that declares the function. -/
  source : String
  /-- The lines of each block. -/
  lines : List NamedLines
  /-- The graph without any file. -/
  rest : FunctionGraph

/-- The graph with the names of its files. -/
def named (t : SymbolTable) (f : FunctionGraph) : Named where
  source := t.name f.source
  lines := List.ofFn fun b => (f.blocks.get b).lines.named t
  rest := f.withoutFiles

/-- Whether a graph can be built does not depend on files. -/
theorem exists_ofRecord_withoutFiles_iff :
    (∃ f, ofRecord record.withoutFiles = .ok f) ↔ ∃ f, ofRecord record = .ok f := by
  rw [← ofRecord_withoutFiles]
  cases ofRecord record with
  | error e => exact ⟨by rintro ⟨_, ⟨⟩⟩, by rintro ⟨_, ⟨⟩⟩⟩
  | ok f => exact ⟨fun _ => ⟨f, rfl⟩, fun _ => ⟨f.withoutFiles, rfl⟩⟩

theorem ofRecord_withoutFiles_eq_ok (h : ofRecord record = .ok f) :
    ofRecord record.withoutFiles = .ok f.withoutFiles := by
  rw [← ofRecord_withoutFiles, h]
  rfl

/-- A named graph is determined by the records of its function with names for symbols. -/
theorem named_eq_of_ofRecord (h : ofRecord record = .ok f) (h' : ofRecord record' = .ok f')
    (hrecord : record.Pooled t) (hrecord' : record'.Pooled t')
    (hnames : record.mapFiles t.name = record'.mapFiles t'.name) : f.named t = f'.named t' := by
  have hsource : t.name record.source = t'.name record'.source :=
    congrArg (fun r => r.source) hnames
  have hlines : record.lines.map (LinesRecord.mapFiles t.name) =
      record'.lines.map (LinesRecord.mapFiles t'.name) := congrArg (fun r => r.lines) hnames
  have hblocks : record.blocks = record'.blocks := congrArg (fun r => r.blocks) hnames
  have hwithout : record.withoutFiles = record'.withoutFiles := by
    rw [← record.withoutFiles_mapFiles t.name, hnames, record'.withoutFiles_mapFiles]
  have hrest := ofRecord_withoutFiles_eq_ok h
  rw [hwithout, ofRecord_withoutFiles_eq_ok h'] at hrest
  have hsize : f.size = f'.size := by
    rw [size_of_ofRecord h, size_of_ofRecord h', hblocks]
  rw [named, named, toAnnouncement_of_ofRecord h, toAnnouncement_of_ofRecord h', hsource,
    Except.ok.inj hrest, List.ofFn_congr hsize]
  congr 2
  funext b
  rw [named_lines_of_ofRecord h hrecord, named_lines_of_ofRecord h' hrecord', hsource, hlines]
  rfl

/-! ### Merging -/

theorem takes_withoutFiles : f.withoutFiles.Takes data ↔ f.Takes data :=
  ⟨fun h => ⟨h.checksum, h.length, h.unmerged⟩, fun h => ⟨h.checksum, h.length, h.unmerged⟩⟩

/-- Merging does not look at files. -/
theorem accepts_withoutFiles : f.withoutFiles.Accepts data ↔ f.Accepts data := by
  rw [accepts_iff, accepts_iff, takes_withoutFiles]
  rfl

theorem afterMerge_withoutFiles (f : FunctionGraph) (data : FunctionData) :
    f.withoutFiles.afterMerge data = (f.afterMerge data).withoutFiles := by
  by_cases htakes : f.Takes data
  · rcases hend : f.network.complete (f.instrumentedCounts data.counts) with ⟨⟨⟩, c⟩ | ⟨o, c⟩
    · rw [afterMerge, afterMerge, merge_eq_ok_iff.2 ⟨htakes, c, hend, rfl⟩,
        merge_eq_ok_iff.2 ⟨takes_withoutFiles.2 htakes, c, hend, rfl⟩]
      rfl
    · rw [afterMerge, afterMerge, htakes.merge_eq_error hend,
        (takes_withoutFiles.2 htakes).merge_eq_error hend]
      rfl
  · rw [afterMerge_of_not_takes htakes, afterMerge_of_not_takes (mt takes_withoutFiles.1 htakes)]

/-- Merging changes neither the files of a graph nor its lines. -/
theorem named_afterMerge (t : SymbolTable) (f : FunctionGraph) (data : FunctionData) :
    (f.afterMerge data).named t =
      { f.named t with rest := (f.named t).rest.afterMerge data } := by
  rw [named, named, afterMerge_withoutFiles]
  obtain ⟨counts, merged, statistics, hafter⟩ := f.after_eq [data]
  rw [after_cons, after_nil] at hafter
  rw [hafter]

end FunctionGraph

end CoverageFlow
