import CoverageFlow.Proofs.Coverage.Reading
import CoverageFlow.Proofs.Coverage.Safety

/-!
# What a data file leaves alone

A data file says nothing about most functions of a unit, or all of them, or about functions of
other units. Reading it changes the functions that it is about, and of those nothing but their
counts and statistics. What it says about functions that the notes file does not announce can be
left out.

## Main definitions

* `FunctionGraph.Solved`, `FunctionGraph.Unsolved`: all counts of a function are known, or none.
* `FunctionGraph.MergedBy`: what a data file makes of a function.
* `Coverage.MergedBy`: what it makes of a unit.

## Main results

* `Coverage.mergedBy_unitOf`: how the units with and without a data file are related.
* `Coverage.read_touches_mentioned`: all of this, from the bytes of both files.
-/

namespace CoverageFlow

open FunctionData

/-! ### Records about some functions only -/

namespace FunctionData

variable {records : List FunctionData} {sums : Std.ExtTreeMap Ident FunctionData}

/-- Records about other functions do not change a sum. -/
theorem sumAt_filter (records : List FunctionData) {p : Ident → Bool} {ident : Ident}
    (h : p ident = true) (k : ℕ) :
    sumAt (records.filter fun r => p r.ident) ident k = sumAt records ident k := by
  rw [sumAt, sumAt, List.filter_filter]
  congr 2
  refine List.filter_congr fun r _ => ?_
  by_cases hident : r.ident = ident
  · simp [hident, h]
  · simp [hident]

/-- The records about some of the functions add up to the sums of these. -/
theorem Totals.filter (h : Totals sums records) (p : Ident → Bool) :
    Totals (sums.filter fun ident _ => p ident) (records.filter fun r => p r.ident) where
  occurs ident := by
    have hmem : ident ∈ sums.filter (fun ident _ => p ident) ↔ ident ∈ sums ∧ p ident = true := by
      simp [Std.ExtTreeMap.mem_filter]
    rw [hmem, h.occurs]
    constructor
    · rintro ⟨⟨r, hr, rfl⟩, hp⟩
      exact ⟨r, List.mem_filter.2 ⟨hr, hp⟩, rfl⟩
    · rintro ⟨r, hr, rfl⟩
      obtain ⟨hr, hp⟩ := List.mem_filter.1 hr
      exact ⟨⟨r, hr, rfl⟩, hp⟩
  isSum ident sum hsum := by
    rw [Std.ExtTreeMap.getElem?_filter', Option.filter_eq_some_iff] at hsum
    obtain ⟨hsum, hp⟩ := hsum
    have his := h.isSum ident sum hsum
    exact ⟨his.ident_eq, fun r hr => his.checksum r (List.mem_of_mem_filter hr),
      fun r hr => his.length r (List.mem_of_mem_filter hr),
      fun k => (his.countAt_eq k).trans (sumAt_filter records hp k).symm⟩

end FunctionData

/-! ### One function -/

namespace FunctionGraph

variable {f f₀ : FunctionGraph} {data : FunctionData} {records : List FunctionData}

/-- Every count of the function is known, and so are its statistics. -/
structure Solved (f : FunctionGraph) : Prop where
  statistics : f.statistics.isSome = true
  known : ∀ x, f.counts.of x ≠ none

/-- Nothing is known about the counts of the function. -/
structure Unsolved (f : FunctionGraph) : Prop where
  statistics : f.statistics = none
  unknown : ∀ x, f.counts.of x = none

/-- What the records of a data file make of the function `f₀`: they solve it if they mention it, and
change nothing but what is known about its counts. -/
structure MergedBy (records : List FunctionData) (f₀ f : FunctionGraph) : Prop where
  same : ∃ counts merged statistics, f = { f₀ with counts, merged, statistics }
  solved : (∃ r ∈ records, r.ident = f₀.ident) → f.Solved
  unsolved : (¬ ∃ r ∈ records, r.ident = f₀.ident) → f.Unsolved

theorem MergedBy.ident_eq (h : MergedBy records f₀ f) : f.ident = f₀.ident := by
  obtain ⟨_, _, _, rfl⟩ := h.same
  rfl

/-- Nothing is known about a function that was just built. -/
theorem Fresh.unsolved (hf : f.Fresh) : f.Unsolved where
  statistics := hf.statistics
  unknown x := by
    rw [hf.counts]
    rcases x with b | i
    · exact get_replicate none b
    · exact get_replicate none i

/-- A function is solved by a record that it does not refuse. -/
theorem Accepts.solved (h : f.Accepts data) : (f.afterMerge data).Solved := by
  obtain ⟨-, c, hmissing, hafter⟩ | ⟨hrefused, -⟩ := (accepts_iff.1 h).1.afterMerge_cases
  · rw [hafter]
    exact ⟨rfl, Counts.of_ne_none hmissing⟩
  · exact absurd h hrefused

end FunctionGraph

/-! ### One unit -/

namespace Coverage

variable {c c₀ : Coverage} {file : NotesFile Symbol} {data : DataFile}

/-- What a data file makes of the unit `c₀` of a notes file. -/
structure MergedBy (file : NotesFile Symbol) (data : DataFile) (c₀ c : Coverage) : Prop where
  /-- Both have the same functions, ordered by their identifiers. -/
  idents : c.functionList.map (fun f => f.ident) = c₀.functionList.map fun f => f.ident
  ordered : (c₀.functionList.map fun f => f.ident.val).Pairwise (· < ·)
  /-- They are those that the notes file announces. -/
  announced : ∀ ident, (∃ f ∈ c₀.functionList, f.ident = ident) ↔
    ∃ record ∈ file.functions, record.ident = ident
  /-- Each was built from the last record about it. -/
  last : ∀ f ∈ c₀.functionList, ∃ record,
    FunctionRecord.last? file.functions f.ident = some record ∧
      FunctionGraph.ofRecord record = .ok f
  /-- They stay the same functions, and those that the data file mentions are solved. -/
  functions : List.Forall₂ (FunctionGraph.MergedBy data.functions) c₀.functionList c.functionList
  /-- Nothing else of the unit changes. -/
  rest : c = { c₀ with
    functions := c.functions, runs := data.runs, programs := data.programs.length
    status := .merged }

section BuiltFrom

variable {functions : Std.ExtTreeMap Ident FunctionGraph}
  {records : List (FunctionRecord Symbol)} {f : FunctionGraph} {ident : Ident}

theorem mem_functionList : f ∈ c.functionList ↔ ∃ ident : Ident, c.functions[ident]? = some f := by
  simp only [functionList, List.mem_map, Prod.exists, exists_eq_right,
    Std.ExtTreeMap.mem_toList_iff_getElem?_eq_some]

/-- Functions are kept by their identifiers. -/
theorem BuiltFrom.ident_eq (h : BuiltFrom functions records) (hf : functions[ident]? = some f) :
    f.ident = ident := by
  obtain ⟨record, hlast, hf⟩ := h.getElem?_eq_some_iff.1 hf
  rw [FunctionGraph.toAnnouncement_of_ofRecord hf]
  exact (FunctionRecord.of_last?_eq_some hlast).2

/-- The identifiers of functions are those of the records. -/
theorem BuiltFrom.exists_iff (h : BuiltFrom functions records) :
    (∃ f, functions[ident]? = some f) ↔ ∃ record ∈ records, record.ident = ident := by
  rw [← FunctionRecord.exists_last?_iff]
  constructor
  · rintro ⟨f, hf⟩
    obtain ⟨record, hlast, -⟩ := h.getElem?_eq_some_iff.1 hf
    exact ⟨record, hlast⟩
  · rintro ⟨record, hlast⟩
    obtain ⟨f, hf⟩ := h.builds record (FunctionRecord.of_last?_eq_some hlast).1
    exact ⟨f, h.getElem?_eq_some_iff.2 ⟨record, hlast, hf⟩⟩

/-- Functions that are kept by their identifiers are ordered by them. -/
theorem pairwise_toList
    (h : ∀ (ident : Ident) (f : FunctionGraph), functions[ident]? = some f → f.ident = ident) :
    ((functions.toList.map Prod.snd).map fun f => f.ident.val).Pairwise (· < ·) := by
  rw [List.map_map, List.pairwise_map]
  refine functions.ordered_keys_toList.imp_of_mem fun {x y} hx hy hlt => ?_
  have hident (entry : Ident × FunctionGraph) (hentry : entry ∈ functions.toList) :
      entry.2.ident = entry.1 :=
    h _ _ (Std.ExtTreeMap.mem_toList_iff_getElem?_eq_some.1 hentry)
  rw [Function.comp_apply, Function.comp_apply, hident x hx, hident y hy]
  exact Std.compare_eq_lt.1 hlt

end BuiltFrom

/-- What a data file makes of functions that were just built. -/
theorem mergedBy_mergeSums {functions : Std.ExtTreeMap Ident FunctionGraph}
    {records : List (FunctionRecord Symbol)} {sums : Std.ExtTreeMap Ident FunctionData}
    (hbuilt : BuiltFrom functions records) (htotals : Totals sums data.functions)
    (haccepts : AcceptsAll functions sums) :
    List.Forall₂ (FunctionGraph.MergedBy data.functions) (functions.toList.map Prod.snd)
      ((mergeSums functions sums).toList.map Prod.snd) := by
  rw [mergeSums, Std.ExtTreeMap.toList_map, List.map_map, List.forall₂_map_left_iff,
    List.forall₂_map_right_iff, List.forall₂_same]
  rintro ⟨ident, f⟩ hmem
  have hf := Std.ExtTreeMap.mem_toList_iff_getElem?_eq_some.1 hmem
  obtain ⟨record, -, hrecord⟩ := hbuilt.getElem?_eq_some_iff.1 hf
  have hident := hbuilt.ident_eq hf
  have hoccurs := htotals.occurs ident
  rw [Std.ExtTreeMap.mem_iff_isSome_getElem?] at hoccurs
  dsimp only [Function.comp_apply]
  cases hsum : sums[ident]? with
  | none =>
    rw [hsum, ← hident] at hoccurs
    exact {
      same := ⟨f.counts, f.merged, f.statistics, rfl⟩
      solved := fun hmention => absurd (hoccurs.2 hmention) Bool.false_ne_true
      unsolved := fun _ => (FunctionGraph.fresh_of_ofRecord hrecord).unsolved }
  | some sum =>
    rw [hsum, ← hident] at hoccurs
    exact {
      same := f.after_eq [sum]
      solved := fun _ => (haccepts ident f sum hf hsum).solved
      unsolved := fun hmention => absurd (hoccurs.1 rfl) hmention }

theorem map_ident_eq {records : List FunctionData} {fs₀ fs : List FunctionGraph}
    (h : List.Forall₂ (FunctionGraph.MergedBy records) fs₀ fs) :
    fs.map (fun f => f.ident) = fs₀.map fun f => f.ident := by
  have hidents : List.Forall₂ (· = ·) (fs.map fun f => f.ident) (fs₀.map fun f => f.ident) := by
    rw [List.forall₂_map_left_iff, List.forall₂_map_right_iff]
    exact (h.imp fun f₀ f hf => hf.ident_eq).flip
  rwa [List.forall₂_eq_eq_eq] at hidents

theorem mergedBy_unitOf {paths : UnitPaths} {symbols : SymbolTable}
    {functions : Std.ExtTreeMap Ident FunctionGraph}
    {sums : Std.ExtTreeMap Ident FunctionData} (hbuilt : BuiltFrom functions file.functions)
    (htotals : Totals sums data.functions) (haccepts : AcceptsAll functions sums) :
    MergedBy file data (unitOf paths file symbols functions)
      { unitOf paths file symbols functions with
        functions := mergeSums functions sums, runs := data.runs
        programs := data.programs.length, status := .merged } where
  idents := map_ident_eq (mergedBy_mergeSums hbuilt htotals haccepts)
  ordered := pairwise_toList fun _ _ => hbuilt.ident_eq
  announced ident := by
    rw [← hbuilt.exists_iff]
    simp only [mem_functionList]
    constructor
    · rintro ⟨f, ⟨ident', hf⟩, rfl⟩
      exact ⟨f, hbuilt.ident_eq hf ▸ hf⟩
    · rintro ⟨f, hf⟩
      exact ⟨f, ⟨ident, hf⟩, hbuilt.ident_eq hf⟩
  last f hf := by
    obtain ⟨ident, hf⟩ := mem_functionList.1 hf
    rw [hbuilt.ident_eq hf]
    exact hbuilt.getElem?_eq_some_iff.1 hf
  functions := mergedBy_mergeSums hbuilt htotals haccepts
  rest := rfl

/-- Sums of functions that are not known have no effect. -/
theorem mergeSums_filter {functions : Std.ExtTreeMap Ident FunctionGraph}
    (sums : Std.ExtTreeMap Ident FunctionData) {p : Ident → Bool}
    (hp : ∀ (ident : Ident) f, functions[ident]? = some f → p ident = true) :
    mergeSums functions (sums.filter fun ident _ => p ident) = mergeSums functions sums := by
  refine Std.ExtTreeMap.ext_getElem? fun {ident} => ?_
  simp only [mergeSums, Std.ExtTreeMap.getElem?_map, Std.ExtTreeMap.getElem?_filter']
  cases hf : functions[ident]? with
  | none => rfl
  | some f => cases sums[ident]? <;> simp [hp ident f hf, Option.filter]

/-- Reading a data file beside a notes file touches the functions that both are about. -/
theorem read_touches_mentioned (paths : UnitPaths) (notes bytes : List UInt8)
    (log log' : List Warning) (c : Coverage) (h : read paths notes (some bytes) log = .ok c log') :
    ∃ file symbols data c₀ log₀, decodeNotes notes = .ok (file, symbols) ∧
      decodeData bytes = .ok data ∧ read paths notes none log = .ok c₀ log₀ ∧
      MergedBy file data c₀ c ∧
      ∃ log₁, c₀.mergeFile { data with
        functions := data.functions.filter fun r => file.functions.any fun g => g.ident = r.ident }
          log₀ = .ok c log₁ := by
  obtain ⟨c₀, log₀, hnotes, hwith⟩ := bind_eq_ok_iff.1 h
  obtain ⟨data, hdata, hmerge⟩ := withData_eq_ok_iff.1 hwith
  obtain ⟨file, symbols, functions, hfile, hbuilt, rfl⟩ :=
    (exists_ofNotes_iff paths log).1 ⟨log₀, hnotes⟩
  obtain ⟨hversion, hstamp, sums, htotals, haccepts, rfl⟩ :=
    (exists_mergeFile_iff log₀).1 ⟨log', hmerge⟩
  have hread : read paths notes none log = .ok (unitOf paths file symbols functions) log₀ :=
    bind_eq_ok_iff.2 ⟨_, log₀, hnotes, rfl⟩
  refine ⟨file, symbols, data, _, log₀, hfile, hdata, hread,
    mergedBy_unitOf hbuilt htotals haccepts, ?_⟩
  let p (ident : Ident) : Bool := file.functions.any fun g => g.ident = ident
  have hp (ident : Ident) (f : FunctionGraph) (hf : functions[ident]? = some f) :
      p ident = true := by
    obtain ⟨g, hg, hident⟩ := hbuilt.exists_iff.1 ⟨f, hf⟩
    exact List.any_eq_true.2 ⟨g, hg, decide_eq_true hident⟩
  refine (exists_mergeFile_iff log₀).2 ⟨hversion, hstamp, _, htotals.filter p, ?_, ?_⟩
  · intro ident f data' hf hdata'
    rw [Std.ExtTreeMap.getElem?_filter', Option.filter_eq_some_iff] at hdata'
    exact haccepts ident f data' hf hdata'.1
  · rw [show (unitOf paths file symbols functions).functions = functions from rfl,
      mergeSums_filter sums hp]
    rfl

/-- The counts of the function of the sample, and those of a function of another unit. -/
def sampleData : List DataUnit :=
  [.function ⟨⟨7⟩, 9, [3]⟩, .function ⟨⟨8⟩, 0, [1]⟩, .object ⟨0, 2, 1, 4, 3, 3⟩]

/-- The graph of the sample. -/
abbrev sampleGraph (source : Symbol) : FunctionGraph where
  ident := ⟨7⟩
  checksum := 9
  name := "f"
  source := source
  line := 1
  size := 2
  numArcs := 1
  two_le := by decide
  blocks := .replicate 2 { flags := 0, attr := {}, lines := ∅ }
  arcs := #v[{
    source := ⟨0, by decide⟩
    target := ⟨1, by decide⟩
    attr := { ArcAttributes.ofFlags 4 with unconditional := true } }]
  counts := .unknown 2 1
  merged := false
  statistics := none

theorem ofRecord_sampleRecord (source : Symbol) :
    FunctionGraph.ofRecord (sampleRecord source) = .ok (sampleGraph source) := by cbv

theorem decodeData_sampleData : decodeData (Writer.dataFile .big ⟨0⟩ 5 sampleData true) =
    .ok (DataFile.ofUnits ⟨0⟩ 5 sampleData) :=
  decodeData_dataFile (by decide) (by decide) ⟨⟨0, 2, 1, 4, 3, 3⟩, by decide⟩ ..

theorem exists_read_sampleData : ∃ c log,
    read samplePaths (Writer.notesFile .big ⟨0⟩ 5 [sampleGroup] true)
      (some (Writer.dataFile .big ⟨0⟩ 5 sampleData true)) [] = .ok c log := by
  obtain ⟨source, symbols, hdecode⟩ := exists_decodeNotes_sampleGroup
  have hbuilt := builtFrom_empty.insert (ofRecord_sampleRecord source)
  obtain ⟨log₀, hnotes⟩ := (exists_ofNotes_iff samplePaths []).2
    ⟨_, symbols, _, hdecode, hbuilt, rfl⟩
  obtain ⟨c, log, hmerge⟩ : ∃ c log, mergeFile
      (unitOf samplePaths ⟨⟨0⟩, 5, [sampleRecord source]⟩ symbols
        ((∅ : Std.ExtTreeMap Ident FunctionGraph).insert ⟨7⟩ (sampleGraph source)))
      (DataFile.ofUnits ⟨0⟩ 5 sampleData) log₀ = .ok c log := ⟨_, _, by cbv⟩
  exact ⟨c, log, bind_eq_ok_iff.2 ⟨_, log₀, hnotes,
    withData_eq_ok_iff.2 ⟨_, decodeData_sampleData, hmerge⟩⟩⟩

/-- The function of the sample is solved; the other counts are left out. -/
theorem read_touches_mentioned_sample : ∃ c log,
    read samplePaths (Writer.notesFile .big ⟨0⟩ 5 [sampleGroup] true)
        (some (Writer.dataFile .big ⟨0⟩ 5 sampleData true)) [] = .ok c log ∧
      ∃ f ∈ c.functionList, f.ident = ⟨7⟩ ∧ f.Solved := by
  obtain ⟨c, log, hread⟩ := exists_read_sampleData
  obtain ⟨file, symbols, data, c₀, log₀, hfile, hdata, -, hmerged, -⟩ :=
    read_touches_mentioned _ _ _ _ _ _ hread
  obtain ⟨source, symbols', hdecode⟩ := exists_decodeNotes_sampleGroup
  cases hfile.symm.trans hdecode
  cases hdata.symm.trans decodeData_sampleData
  obtain ⟨f₀, hf₀, hident⟩ := (hmerged.announced ⟨7⟩).2 ⟨_, List.mem_cons_self, rfl⟩
  obtain ⟨hlength, hfunctions⟩ := List.forall₂_iff_get.1 hmerged.functions
  obtain ⟨i, rfl⟩ := List.get_of_mem hf₀
  have hf := hfunctions i i.isLt (hlength ▸ i.isLt)
  refine ⟨c, log, hread, _, List.get_mem .., hf.ident_eq.trans hident, hf.solved ?_⟩
  exact ⟨⟨⟨7⟩, 9, [3]⟩, by decide, hident.symm⟩

end Coverage

end CoverageFlow
