import CoverageFlow.Proofs.Flow.Serving
import CoverageFlow.Proofs.Graph.Merge
import CoverageFlow.Proofs.Reader.Pooled

/-!
# Function graphs that answer every question

A function graph is asked for the names of its files, for its blocks by number, for its complexity
and for its statistics. None of this can fail if the table of the unit knows the files, if the
number of blocks is a word, and if the statistics are counts. The first two hold of the graph of a
pooled record, since a graph mentions no files but those of its record. The third holds after
merging, since the normal returns are part of what enters the exit.

## Main definitions

* `FunctionGraph.Mentions`: the files of a function and of the lines of its blocks.
* `FunctionGraph.Safe`: whatever the function is asked for can be answered.

## Main results

* `FunctionGraph.mentions_of_ofRecord`: a graph mentions the files of its record only.
* `FunctionGraph.statistics_le_max_of_merge`: the statistics of a function are counts.
* `FunctionGraph.safe_of_ofRecord`, `FunctionGraph.Safe.of_merge`: graphs are safe when they are
  built, and stay safe when counts are merged.
-/

namespace CoverageFlow

open Finset

variable {n : ℕ}

/-! ### The files of lines -/

theorem LineMap.mem_of_mem_toList {lines : LineMap} {file : Symbol}
    {numbers : Std.ExtTreeSet UInt32 compare} (h : (file, numbers) ∈ lines.toList) :
    file ∈ lines := by
  rw [Std.ExtTreeMap.mem_iff_isSome_getElem?,
    Std.ExtTreeMap.mem_toList_iff_getElem?_eq_some.1 h]
  rfl

theorem LineMap.mem_of_mem_pairs {lines : LineMap} {spot : Symbol × UInt32}
    (h : spot ∈ lines.pairs) : spot.1 ∈ lines := by
  obtain ⟨⟨file, numbers⟩, hentry, hspot⟩ := List.mem_flatMap.1 h
  obtain ⟨line, -, rfl⟩ := List.mem_map.1 hspot
  exact LineMap.mem_of_mem_toList hentry

theorem LineMap.mem_insert {lines : LineMap} {file x : Symbol} {line : UInt32} :
    x ∈ lines.insert file line ↔ x = file ∨ x ∈ lines := by
  rw [LineMap.insert, Std.ExtTreeMap.mem_insert, Std.LawfulEqOrd.compare_eq_iff_eq, eq_comm]

theorem LineMap.mem_record {lines : LineMap} {file x : Symbol} {items : List (Line Symbol)}
    (h : x ∈ lines.record file items) : x ∈ lines ∨ x = file ∨ .file x ∈ items := by
  induction items generalizing lines file with
  | nil => exact .inl h
  | cons item items ih =>
    cases item with
    | file file' =>
      obtain hx | rfl | hx := ih h
      · exact .inl hx
      · exact .inr (.inr List.mem_cons_self)
      · exact .inr (.inr (List.mem_cons_of_mem _ hx))
    | number line =>
      obtain hx | rfl | hx := ih h
      · obtain rfl | hx := LineMap.mem_insert.1 hx
        · exact .inr (.inl rfl)
        · exact .inl hx
      · exact .inr (.inl rfl)
      · exact .inr (.inr (List.mem_cons_of_mem _ hx))

namespace Draft

variable {draft draft' : Draft n}

theorem lines_mark (change : BlockAttributes → BlockAttributes) (blocks : Vector Block n)
    (b b' : Fin n) : ((mark change blocks b).get b').lines = (blocks.get b').lines := by
  rw [mark, get_set]
  split
  · next h => rw [← h]
  · rfl

theorem lines_connect (draft : Draft n) (source target : Fin n) (attr : ArcAttributes)
    (b : Fin n) :
    ((draft.connect source target attr).blocks.get b).lines = (draft.blocks.get b).lines := by
  rw [connect]
  split
  · rfl
  · split
    · exact lines_mark ..
    · exact lines_mark ..

/-- Arcs have no lines. -/
theorem lines_connectAll {record : ArcsRecord} (h : draft.connectAll record = .ok draft')
    (b : Fin n) : (draft'.blocks.get b).lines = (draft.blocks.get b).lines := by
  obtain ⟨source, -, h⟩ := bind_eq_ok.1 h
  refine foldlM_eq_ok_induction (P := fun d => (d.blocks.get b).lines = (draft.blocks.get b).lines)
    h rfl fun arc _ d d' hd harc => ?_
  obtain ⟨target, -, harc⟩ := bind_eq_ok.1 harc
  cases harc
  exact (lines_connect ..).trans hd

theorem lines_ofBlocks (flags : List UInt32) (b : Fin flags.length) :
    ((ofBlocks flags).blocks.get b).lines = ∅ := by
  rw [get_eq_getElem]
  simp [ofBlocks]

theorem mem_lines_of_coverLines {file x : Symbol} {record : LinesRecord Symbol} {b : Fin n}
    (h : draft.coverLines file record = .ok draft') (hx : x ∈ (draft'.blocks.get b).lines) :
    x ∈ (draft.blocks.get b).lines ∨ x = file ∨ .file x ∈ record.items := by
  obtain ⟨b', -, h⟩ := bind_eq_ok.1 h
  cases h
  dsimp only at hx
  rw [get_set] at hx
  split at hx
  · next hb =>
    subst hb
    exact LineMap.mem_record hx
  · exact .inl hx

theorem lines_finish (draft : Draft n) (b : Fin n) :
    (draft.finish.blocks.get b).lines = (draft.blocks.get b).lines := by
  have hfold (arcs : List (Arc n)) (blocks : Vector Block n) :
      ((arcs.foldl (fun blocks a => mark ({ · with callReturn := true }) blocks a.target)
        blocks).get b).lines = (blocks.get b).lines := by
    induction arcs generalizing blocks with
    | nil => rfl
    | cons a arcs ih => exact (ih _).trans (lines_mark ..)
  exact hfold _ _

end Draft

namespace FunctionGraph

variable {f f' : FunctionGraph} {record : FunctionRecord Symbol} {symbols : SymbolTable}

/-- A file that declares the function or has lines of one of its blocks. -/
def Mentions (f : FunctionGraph) (file : Symbol) : Prop :=
  file = f.source ∨ ∃ b, file ∈ (f.blocks.get b).lines

/-! ### What was just built -/

/-- A graph mentions the files of its record only. -/
theorem mentions_of_ofRecord (h : ofRecord record = .ok f) {x : Symbol} (hx : f.Mentions x) :
    record.Mentions x := by
  obtain ⟨connected, covered, ends, hconnected, hcovered, -, rfl⟩ := ofRecord_eq_ok_iff.1 h
  obtain rfl | ⟨b, hb⟩ := hx
  · exact .inl rfl
  -- Arcs are added first, while no block has lines; afterwards only records of lines add any.
  have hempty : (connected.blocks.get b).lines = ∅ :=
    foldlM_eq_ok_induction (P := fun d => (d.blocks.get b).lines = ∅) hconnected
      (Draft.lines_ofBlocks _ b) fun _ _ _ _ hd harcs => (Draft.lines_connectAll harcs b).trans hd
  refine foldlM_eq_ok_induction (P := fun d => x ∈ (d.blocks.get b).lines → record.Mentions x)
    hcovered ?_ ?_ (Draft.lines_finish covered b ▸ hb)
  · rw [hempty]
    exact fun hx => absurd hx Std.ExtTreeMap.not_mem_empty
  · intro r hr d d' hd hlines hx
    obtain hx | rfl | hx := Draft.mem_lines_of_coverLines hlines hx
    · exact hd hx
    · exact .inl rfl
    · exact .inr ⟨r, hr, hx⟩

/-! ### Statistics -/

/-- What a merged function tells about its calls are counts. -/
theorem statistics_le_max_of_merge {data : FunctionData} (h : f.merge data = .ok () f') :
    ∃ s, f'.statistics = some s ∧ s.called ≤ Count.max.toNat ∧ s.returned ≤ Count.max.toNat := by
  obtain ⟨-, c, hend, rfl⟩ := merge_eq_ok_iff.1 h
  rw [withCounts_eq]
  refine ⟨f.statisticsOf c.value, rfl, c.value_le_max _, ?_⟩
  have hsubset : univ.filter (fun i => (f.arcs.get i).target = f.exit ∧
      (f.arcs.get i).attr.fake = false) ⊆ f.network.side .incoming f.exit := fun i hi => by
    rw [Network.mem_side, get_network]
    exact (mem_filter.1 hi).2.1
  have hsettles : f.network.Settles (f.instrumentedCounts data.counts) c := .inl hend
  exact (sum_le_sum_of_subset hsubset).trans
    (Nat.le_pred_of_lt (hsettles.flow_lt .incoming f.exit))

/-! ### Safety -/

/-- An integer that 64 bits hold. -/
def FitsInt64 (x : ℤ) : Prop :=
  Int64.minValue.toInt ≤ x ∧ x ≤ Int64.maxValue.toInt

/-- Whatever a function is asked for can be answered, with the names of a given table. -/
structure Safe (f : FunctionGraph) (symbols : SymbolTable) : Prop where
  /-- Every file of the function has a name. -/
  knows : ∀ x, f.Mentions x → symbols.Knows x
  /-- The number of the exit is one less than the number of blocks. -/
  exit : f.exit.val + 1 = f.size
  /-- There are two blocks that are not inner ones. -/
  innerBlockCount : f.innerBlockCount + 2 = f.size
  /-- The number of blocks is a word. -/
  size : f.size < UInt32.size
  /-- Every block is found by its number. -/
  block : ∀ b : Fin f.size, f.block? b = some b
  /-- Both sides of every block are found by its number. -/
  arcsAt : ∀ (d : Direction) (b : Fin f.size), f.arcsAt d b = f.arcsOn d b
  /-- No complexity leaves the range of its type, if the number of arcs is that of a graph whose
  arcs are numbered by words. -/
  complexity : f.numArcs < UInt32.size - 1 →
    FitsInt64 (f.numArcs - f.size) ∧ FitsInt64 f.fullComplexity ∧ FitsInt64 f.complexity
  /-- The statistics, if there are any, hold no sum that is not a count. -/
  statistics : ∀ s ∈ f.statistics, s.called ≤ Count.max.toNat ∧ s.returned ≤ Count.max.toNat

theorem block?_val (hsize : f.size < UInt32.size) (b : Fin f.size) : f.block? b = some b := by
  have hmod : b.val % UInt32.size = b.val := Nat.mod_eq_of_lt (b.isLt.trans hsize)
  simp only [block?, hmod, b.isLt, dif_pos, Fin.eta]

theorem fakeExits_le (f : FunctionGraph) : f.fakeExits ≤ f.numArcs :=
  Vector.countP_le_size

/-- A graph is safe if its files are known, its number of blocks is a word, and its statistics are
counts. -/
theorem safe_of_size_lt (hknows : ∀ x, f.Mentions x → symbols.Knows x)
    (hsize : f.size < UInt32.size)
    (hstatistics : ∀ s ∈ f.statistics, s.called ≤ Count.max.toNat ∧
      s.returned ≤ Count.max.toNat) : f.Safe symbols where
  knows := hknows
  exit := Nat.sub_one_add_one_eq_of_pos f.entry.pos
  innerBlockCount := Nat.sub_add_cancel f.two_le
  size := hsize
  block := block?_val hsize
  arcsAt d b := by rw [arcsAt, block?_val hsize]
  complexity harcs := by
    have hfake := f.fakeExits_le
    have hmin : Int64.minValue.toInt = -0x8000000000000000 := by decide
    have hmax : Int64.maxValue.toInt = 0x7fffffffffffffff := by decide
    simp only [FitsInt64, hmin, hmax, complexity, fullComplexity, UInt32.size] at *
    omega
  statistics := hstatistics

theorem safe_of_ofRecord (h : ofRecord record = .ok f) (hrecord : record.Pooled symbols) :
    f.Safe symbols := by
  refine safe_of_size_lt (fun x hx => hrecord.knows x (mentions_of_ofRecord h hx)) ?_ ?_
  · rw [size_of_ofRecord h]
    exact hrecord.blocks
  · rw [(fresh_of_ofRecord h).statistics]
    rintro s ⟨⟩

/-- Merging changes neither the files nor the blocks of a function. -/
theorem Safe.of_merge {data : FunctionData} (hf : f.Safe symbols)
    (h : f.merge data = .ok () f') : f'.Safe symbols := by
  obtain ⟨s, hs, hle⟩ := statistics_le_max_of_merge h
  have hstatistics : ∀ s ∈ f'.statistics, s.called ≤ Count.max.toNat ∧
      s.returned ≤ Count.max.toNat := by
    rw [hs]
    rintro _ ⟨⟩
    exact hle
  obtain ⟨-, c, -, rfl⟩ := merge_eq_ok_iff.1 h
  exact safe_of_size_lt hf.knows hf.size hstatistics

end FunctionGraph

end CoverageFlow
