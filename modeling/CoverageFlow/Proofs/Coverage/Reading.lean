import CoverageFlow.Proofs.Coverage.Totals
import CoverageFlow.Proofs.Graph.LifeCycle

/-!
# What is read

Reading goes through two lists: the records of the notes file, of which each replaces an earlier
one about the same function, and the sums of the data file, of which each is merged into its
function. What comes out depends on neither order. A function is built from the last record about
it, and is then what merging its own sum, if there is one, makes of it.

## Main definitions

* `FunctionRecord.last?`: the last record about a function.
* `Coverage.BuiltFrom`: functions are those of records, each built from the last one about it.
* `Coverage.mergeSums`, `Coverage.AcceptsAll`: every sum merged into its function; none is refused.
* `Coverage.Completed`: what becomes of a unit with a data file, or without one.

## Main results

* `Coverage.exists_ofNotes_iff`: what is read from a notes file.
* `Coverage.exists_mergeFile_iff`: what becomes of it with a data file.
* `Coverage.exists_read_iff`: both together.
-/

namespace CoverageFlow

/-! ### The last record about a function -/

namespace FunctionRecord

variable {records : List (FunctionRecord Symbol)} {record : FunctionRecord Symbol} {ident : Ident}

/-- The last record about a function. -/
def last? (records : List (FunctionRecord Symbol)) (ident : Ident) :
    Option (FunctionRecord Symbol) :=
  records.reverse.find? fun record => record.ident = ident

@[simp] theorem last?_nil (ident : Ident) : last? [] ident = none := rfl

theorem last?_append (records : List (FunctionRecord Symbol)) (record : FunctionRecord Symbol)
    (ident : Ident) : last? (records ++ [record]) ident =
      if record.ident = ident then some record else last? records ident := by
  rw [last?, List.reverse_append, List.reverse_singleton, List.singleton_append, List.find?_cons]
  by_cases h : record.ident = ident
  · rw [if_pos h]
    simp [h]
  · rw [if_neg h]
    simp [h, last?]

theorem of_last?_eq_some (h : last? records ident = some record) :
    record ∈ records ∧ record.ident = ident :=
  ⟨List.mem_reverse.1 (List.mem_of_find?_eq_some h), by simpa using List.find?_some h⟩

theorem last?_eq_none_iff :
    last? records ident = none ↔ ∀ record ∈ records, record.ident ≠ ident := by
  simp [last?, List.find?_eq_none]

/-- A function has a last record if it has any. -/
theorem exists_last?_iff :
    (∃ record, last? records ident = some record) ↔ ∃ record ∈ records, record.ident = ident := by
  rw [← Option.ne_none_iff_exists', Ne, last?_eq_none_iff]
  push Not
  rfl

end FunctionRecord

namespace Coverage

open FunctionData FunctionRecord Logged

/-! ### Functions from records -/

section Notes

variable {path : Path} {paths : UnitPaths} {c : Coverage} {bytes : List UInt8}
  {log log' : List Warning}
  {records before : List (FunctionRecord Symbol)} {record : FunctionRecord Symbol}
  {functions functions' : Std.ExtTreeMap Ident FunctionGraph} {f : FunctionGraph} {ident : Ident}

/-- Every record can be built, and every function is built from the last record about it. -/
structure BuiltFrom (functions : Std.ExtTreeMap Ident FunctionGraph)
    (records : List (FunctionRecord Symbol)) : Prop where
  builds : ∀ record ∈ records, ∃ f, FunctionGraph.ofRecord record = .ok f
  getElem?_eq : ∀ ident : Ident, functions[ident]? =
    (last? records ident).bind fun record => (FunctionGraph.ofRecord record).toOption

theorem builtFrom_empty : BuiltFrom ∅ [] where
  builds := by rintro _ ⟨⟩
  getElem?_eq ident := Std.ExtTreeMap.getElem?_empty

theorem BuiltFrom.getElem?_eq_some_iff (h : BuiltFrom functions records) :
    functions[ident]? = some f ↔
      ∃ record, last? records ident = some record ∧ FunctionGraph.ofRecord record = .ok f := by
  rw [h.getElem?_eq, Option.bind_eq_some_iff]
  refine exists_congr fun record => and_congr_right fun _ => ?_
  cases FunctionGraph.ofRecord record <;> simp [Except.toOption]

/-- The functions of records are determined. -/
theorem BuiltFrom.eq (h : BuiltFrom functions records) (h' : BuiltFrom functions' records) :
    functions = functions' :=
  Std.ExtTreeMap.ext_getElem? fun {ident} => (h.getElem?_eq ident).trans (h'.getElem?_eq ident).symm

/-- One more record replaces the function that it is about. -/
theorem BuiltFrom.insert (h : BuiltFrom functions before)
    (hf : FunctionGraph.ofRecord record = .ok f) :
    BuiltFrom (functions.insert f.ident f) (before ++ [record]) where
  builds := List.forall_mem_append.2 ⟨h.builds, List.forall_mem_singleton.2 ⟨f, hf⟩⟩
  getElem?_eq ident := by
    rw [getElem?_insert_eq, last?_append, FunctionGraph.toAnnouncement_of_ofRecord hf]
    split
    · rw [Option.bind_some, hf]
      rfl
    · exact h.getElem?_eq ident

theorem addFunction_eq_ok (h : addFunction path functions record log = .ok functions' log') :
    ∃ f, FunctionGraph.ofRecord record = .ok f ∧ functions' = functions.insert f.ident f := by
  obtain ⟨f, log₁, hpassed, hend⟩ := bind_eq_ok_iff.1 h
  obtain ⟨hf, rfl⟩ := passing_ofExcept_eq_ok_iff.1 hpassed
  refine ⟨f, mapError_eq_ok.1 hf, ?_⟩
  dsimp only at hend
  split at hend
  · obtain ⟨⟨⟩, log₂, -, hinsert⟩ := bind_eq_ok_iff.1 hend
    cases hinsert
    rfl
  · cases hend
    rfl

theorem exists_addFunction (hf : FunctionGraph.ofRecord record = .ok f) (path : Path)
    (functions : Std.ExtTreeMap Ident FunctionGraph) (log : List Warning) :
    ∃ log', addFunction path functions record log = .ok (functions.insert f.ident f) log' := by
  have hpassed : passing (.file path.text)
      (Logged.ofExcept ((FunctionGraph.ofRecord record).mapError .bare)) log = .ok f log :=
    passing_ofExcept_eq_ok_iff.2 ⟨mapError_eq_ok.2 hf, rfl⟩
  by_cases hknown : functions.contains f.ident = true
  · refine ⟨log ++ [.duplicateFunction path.text f.ident],
      bind_eq_ok_iff.2 ⟨f, log, hpassed, ?_⟩⟩
    rw [if_pos hknown]
    rfl
  · refine ⟨log, bind_eq_ok_iff.2 ⟨f, log, hpassed, ?_⟩⟩
    rw [if_neg hknown]
    rfl

/-- Records are read in their order, each replacing what it is about. -/
theorem BuiltFrom.foldlM (h : BuiltFrom functions before)
    (hend : records.foldlM (addFunction path) functions log = .ok functions' log') :
    BuiltFrom functions' (before ++ records) := by
  induction records generalizing functions before log with
  | nil =>
    cases hend
    rwa [List.append_nil]
  | cons record records ih =>
    rw [List.foldlM_cons] at hend
    obtain ⟨functions₁, log₁, hadd, hend⟩ := bind_eq_ok_iff.1 hend
    obtain ⟨f, hf, rfl⟩ := addFunction_eq_ok hadd
    have hall := ih (h.insert hf) hend
    rwa [List.append_assoc] at hall

theorem exists_foldlM_addFunction
    (h : ∀ record ∈ records, ∃ f, FunctionGraph.ofRecord record = .ok f) (path : Path)
    (functions : Std.ExtTreeMap Ident FunctionGraph) (log : List Warning) :
    ∃ functions' log', records.foldlM (addFunction path) functions log = .ok functions' log' := by
  induction records generalizing functions log with
  | nil => exact ⟨functions, log, rfl⟩
  | cons record records ih =>
    obtain ⟨⟨f, hf⟩, hrecords⟩ := List.forall_mem_cons.1 h
    obtain ⟨log₁, hadd⟩ := exists_addFunction hf path functions log
    obtain ⟨functions', log', hend⟩ := ih hrecords (functions.insert f.ident f) log₁
    exact ⟨functions', log', bind_eq_ok_iff.2 ⟨_, log₁, hadd, hend⟩⟩

theorem exists_builtFrom (h : ∀ record ∈ records, ∃ f, FunctionGraph.ofRecord record = .ok f) :
    ∃ functions, BuiltFrom functions records := by
  obtain ⟨functions, _, hend⟩ := exists_foldlM_addFunction h default ∅ []
  exact ⟨functions, builtFrom_empty.foldlM hend⟩

/-- The unit that a notes file describes. -/
def unitOf (paths : UnitPaths) (file : NotesFile Symbol) (symbols : SymbolTable)
    (functions : Std.ExtTreeMap Ident FunctionGraph) : Coverage where
  paths := paths
  version := file.version
  stamp := file.stamp
  functions := functions
  symbols := symbols
  runs := 0
  programs := 0
  status := .missing

/-- A notes file is read if it can be decoded and if every record in it can be built. -/
theorem exists_ofNotes_iff (paths : UnitPaths) (log : List Warning) :
    (∃ log', ofNotes paths bytes log = .ok c log') ↔
    ∃ file symbols functions, decodeNotes bytes = .ok (file, symbols) ∧
      BuiltFrom functions file.functions ∧ c = unitOf paths file symbols functions := by
  constructor
  · rintro ⟨log', h⟩
    obtain ⟨⟨file, symbols⟩, log₁, hpassed, h⟩ := bind_eq_ok_iff.1 h
    obtain ⟨hdecode, rfl⟩ := passing_ofExcept_eq_ok_iff.1 hpassed
    obtain ⟨functions, log₂, hfunctions, h⟩ := bind_eq_ok_iff.1 h
    cases h
    exact ⟨file, symbols, functions, hdecode, builtFrom_empty.foldlM hfunctions, rfl⟩
  · rintro ⟨file, symbols, functions, hdecode, hbuilt, rfl⟩
    obtain ⟨functions', log', hend⟩ :=
      exists_foldlM_addFunction hbuilt.builds paths.notesPath ∅ log
    obtain rfl := hbuilt.eq (builtFrom_empty.foldlM hend)
    exact ⟨log', bind_eq_ok_iff.2 ⟨_, log, passing_ofExcept_eq_ok_iff.2 ⟨hdecode, rfl⟩,
      bind_eq_ok_iff.2 ⟨_, log', hend, rfl⟩⟩⟩

end Notes

/-! ### Functions with sums -/

section Data

variable {c c' : Coverage} {f : FunctionGraph} {log : List Warning} {data : FunctionData}
  {datas : List FunctionData} {file : DataFile} {sums : Std.ExtTreeMap Ident FunctionData}
  {ident : Ident}

/-- The unit after one function was merged, if it is known. -/
def mergeOne (c : Coverage) (data : FunctionData) : Coverage :=
  { c with functions := c.functions.modify data.ident fun f => f.afterMerge data }

theorem function?_mergeOne (c : Coverage) (data : FunctionData) (ident : Ident) :
    (c.mergeOne data).function? ident = if data.ident = ident then
      (c.function? ident).map (FunctionGraph.afterMerge · data) else c.function? ident := by
  rw [function?, mergeOne, Std.ExtTreeMap.getElem?_modify]
  simp only [Std.LawfulEqOrd.compare_eq_iff_eq]
  split
  · next h => rw [h]; rfl
  · rfl

/-- Merging one function changes nothing but the functions. -/
theorem mergeOne_eq {functions : Std.ExtTreeMap Ident FunctionGraph}
    (h : ∀ ident, (c.mergeOne data).function? ident = functions[ident]?) :
    c.mergeOne data = { c with functions } := by
  rw [← show (c.mergeOne data).functions = functions from
    Std.ExtTreeMap.ext_getElem? fun {ident} => h ident]
  rfl

theorem mergeOne_of_none (h : c.function? data.ident = none) : c.mergeOne data = c := by
  refine mergeOne_eq fun ident => (function?_mergeOne c data ident).trans ?_
  split
  · next hident => rw [← hident, h]; exact h.symm
  · rfl

theorem mergeOne_of_some (h : c.function? data.ident = some f) :
    c.mergeOne data =
      { c with functions := c.functions.insert data.ident (f.afterMerge data) } := by
  refine mergeOne_eq fun ident => (function?_mergeOne c data ident).trans ?_
  rw [getElem?_insert_eq]
  split
  · next hident => rw [← hident, h]; rfl
  · rfl

/-- A record about a known function is merged unless that function refuses it; one about another
function changes nothing. -/
theorem exists_mergeFunction_iff (log : List Warning) :
    (∃ log', mergeFunction c data log = .ok c' log') ↔
    (∀ f, c.function? data.ident = some f → f.Accepts data) ∧ c' = c.mergeOne data := by
  rw [mergeFunction]
  cases hf : c.function? data.ident with
  | none =>
    rw [mergeOne_of_none hf]
    constructor
    · rintro ⟨log', h⟩
      obtain ⟨⟨⟩, log₁, -, hpure⟩ := bind_eq_ok_iff.1 h
      cases hpure
      exact ⟨by rintro _ ⟨⟩, rfl⟩
    · rintro ⟨-, rfl⟩
      exact ⟨_, rfl⟩
  | some f =>
    rw [mergeOne_of_some hf]
    dsimp only
    rcases hmerge : f.merge data with ⟨⟨⟩, f'⟩ | ⟨e, f'⟩
    · rw [FunctionGraph.afterMerge, hmerge]
      constructor
      · rintro ⟨log', h⟩
        cases h
        refine ⟨?_, rfl⟩
        rintro _ ⟨⟩
        exact ⟨f', hmerge⟩
      · rintro ⟨-, rfl⟩
        exact ⟨log, rfl⟩
    · constructor
      · rintro ⟨log', ⟨⟩⟩
      · rintro ⟨haccepts, -⟩
        obtain ⟨f'', hok⟩ := haccepts f rfl
        rw [hmerge] at hok
        cases hok

/-- Records about different functions do not disturb each other. -/
theorem exists_foldlM_mergeFunction_iff (hdatas : datas.Pairwise fun a b => a.ident ≠ b.ident)
    (log : List Warning) :
    (∃ log', datas.foldlM mergeFunction c log = .ok c' log') ↔
      (∀ data ∈ datas, ∀ f, c.function? data.ident = some f → f.Accepts data) ∧
        c' = datas.foldl mergeOne c := by
  induction datas generalizing c log with
  | nil =>
    constructor
    · rintro ⟨log', ⟨⟩⟩
      exact ⟨by rintro _ ⟨⟩, rfl⟩
    · rintro ⟨-, rfl⟩
      exact ⟨log, rfl⟩
  | cons data datas ih =>
    obtain ⟨hdata, hdatas⟩ := List.pairwise_cons.1 hdatas
    have hother : ∀ d ∈ datas, (c.mergeOne data).function? d.ident = c.function? d.ident :=
      fun d hd => (function?_mergeOne c data d.ident).trans (if_neg (hdata d hd))
    rw [List.foldlM_cons, List.foldl_cons, List.forall_mem_cons]
    constructor
    · rintro ⟨log', h⟩
      obtain ⟨c₁, log₁, hfirst, hrest⟩ := bind_eq_ok_iff.1 h
      obtain ⟨haccepts, rfl⟩ := (exists_mergeFunction_iff log).1 ⟨log₁, hfirst⟩
      obtain ⟨hall, hc'⟩ := (ih hdatas log₁).1 ⟨log', hrest⟩
      exact ⟨⟨haccepts, fun d hd f hf => hall d hd f ((hother d hd).trans hf)⟩, hc'⟩
    · rintro ⟨⟨haccepts, hall⟩, hc'⟩
      obtain ⟨log₁, hfirst⟩ := (exists_mergeFunction_iff log).2 ⟨haccepts, rfl⟩
      obtain ⟨log', hrest⟩ := (ih hdatas log₁).2
        ⟨fun d hd f hf => hall d hd f ((hother d hd).symm.trans hf), hc'⟩
      exact ⟨log', bind_eq_ok_iff.2 ⟨_, log₁, hfirst, hrest⟩⟩

/-- Each function is merged with the record about it. -/
theorem function?_foldl_mergeOne (hdatas : datas.Pairwise fun a b => a.ident ≠ b.ident)
    (c : Coverage) (ident : Ident) : (datas.foldl mergeOne c).function? ident =
      (c.function? ident).map fun f =>
        (datas.find? fun data => data.ident = ident).elim f f.afterMerge := by
  induction datas generalizing c with
  | nil => exact Option.map_id'.symm
  | cons data datas ih =>
    obtain ⟨hdata, hdatas⟩ := List.pairwise_cons.1 hdatas
    rw [List.foldl_cons, ih hdatas, function?_mergeOne, List.find?_cons]
    by_cases h : data.ident = ident
    · have hnone : datas.find? (fun data => data.ident = ident) = none :=
        List.find?_eq_none.2 fun d hd => by simpa [← h] using (hdata d hd).symm
      cases c.function? ident <;> simp [h, hnone]
    · simp [h]

/-- Every sum merged into its function. -/
def mergeSums (functions : Std.ExtTreeMap Ident FunctionGraph)
    (sums : Std.ExtTreeMap Ident FunctionData) : Std.ExtTreeMap Ident FunctionGraph :=
  functions.map fun ident f => sums[ident]?.elim f f.afterMerge

/-- No function refuses its sum. -/
def AcceptsAll (functions : Std.ExtTreeMap Ident FunctionGraph)
    (sums : Std.ExtTreeMap Ident FunctionData) : Prop :=
  ∀ (ident : Ident) f data, functions[ident]? = some f → sums[ident]? = some data → f.Accepts data

theorem foldl_mergeOne_eq (datas : List FunctionData) (c : Coverage) :
    datas.foldl mergeOne c = { c with functions := (datas.foldl mergeOne c).functions } := by
  induction datas generalizing c with
  | nil => rfl
  | cons data datas ih =>
    rw [List.foldl_cons]
    exact ih (c.mergeOne data)

section Sums

variable (hsums : ∀ (ident : Ident) (sum : FunctionData), sums[ident]? = some sum →
  sum.ident = ident)

include hsums

theorem getElem?_ident_of_mem (hdata : data ∈ sums.toList.map Prod.snd) :
    sums[data.ident]? = some data := by
  obtain ⟨⟨ident, sum⟩, hmem, rfl⟩ := List.mem_map.1 hdata
  have hsum := Std.ExtTreeMap.mem_toList_iff_getElem?_eq_some.1 hmem
  rwa [hsums ident sum hsum]

/-- Sums are about different functions. -/
theorem pairwise_ident_toList :
    (sums.toList.map Prod.snd).Pairwise fun a b => a.ident ≠ b.ident := by
  rw [List.pairwise_map]
  refine sums.distinct_keys_toList.imp_of_mem fun {x y} hx hy hne hident => hne ?_
  rw [Std.LawfulEqOrd.compare_eq_iff_eq,
    ← hsums _ _ (Std.ExtTreeMap.mem_toList_iff_getElem?_eq_some.1 hx),
    ← hsums _ _ (Std.ExtTreeMap.mem_toList_iff_getElem?_eq_some.1 hy), hident]

/-- Sums are found by the functions that they are about. -/
theorem find?_toList (ident : Ident) :
    ((sums.toList.map Prod.snd).find? fun data => data.ident = ident) = sums[ident]? := by
  cases hfind : (sums.toList.map Prod.snd).find? fun data => data.ident = ident with
  | some data =>
    have hident : data.ident = ident := by simpa using List.find?_some hfind
    rw [← hident, getElem?_ident_of_mem hsums (List.mem_of_find?_eq_some hfind)]
  | none =>
    cases hsum : sums[ident]? with
    | none => rfl
    | some sum =>
      have hmem := List.mem_map_of_mem (f := Prod.snd)
        (Std.ExtTreeMap.mem_toList_iff_getElem?_eq_some.2 hsum)
      have hident := hsums ident sum hsum
      simpa [hident] using List.find?_eq_none.1 hfind sum hmem

end Sums

/-- Sums are merged unless a function refuses its own. -/
theorem exists_foldlM_sums_iff {records : List FunctionData} (htotals : Totals sums records)
    (log : List Warning) :
    (∃ log', (sums.toList.map Prod.snd).foldlM mergeFunction c log = .ok c' log') ↔
      AcceptsAll c.functions sums ∧ c' = { c with functions := mergeSums c.functions sums } := by
  have hidents ident sum hsum := (htotals.isSum ident sum hsum).ident_eq
  have hfunctions : ((sums.toList.map Prod.snd).foldl mergeOne c).functions =
      mergeSums c.functions sums := by
    refine Std.ExtTreeMap.ext_getElem? fun {ident} =>
      (function?_foldl_mergeOne (pairwise_ident_toList hidents) c ident).trans ?_
    rw [find?_toList hidents, mergeSums, Std.ExtTreeMap.getElem?_map]
    rfl
  rw [exists_foldlM_mergeFunction_iff (pairwise_ident_toList hidents), foldl_mergeOne_eq,
    hfunctions]
  refine and_congr_left fun _ => ⟨fun h ident f data hf hdata => ?_, fun h data hdata f hf => ?_⟩
  · have hmem := List.mem_map_of_mem (f := Prod.snd)
      (Std.ExtTreeMap.mem_toList_iff_getElem?_eq_some.2 hdata)
    exact h data hmem f (hidents ident data hdata ▸ hf)
  · exact h data.ident f data hf (getElem?_ident_of_mem hidents hdata)

/-- A data file is merged if it belongs to the notes, if its records can be added up, and if no
function refuses its sum. -/
theorem exists_mergeFile_iff (log : List Warning) :
    (∃ log', c.mergeFile file log = .ok c' log') ↔
    file.version = c.version ∧ file.stamp = c.stamp ∧
      ∃ sums, Totals sums file.functions ∧ AcceptsAll c.functions sums ∧
        c' = { c with
          functions := mergeSums c.functions sums, runs := file.runs
          programs := file.programs.length, status := .merged } := by
  constructor
  · rintro ⟨log', h⟩
    obtain ⟨hversion, hstamp, sums, htotals, merged, hend, rfl⟩ := mergeFile_eq_ok_iff.1 h
    obtain ⟨haccepts, rfl⟩ := (exists_foldlM_sums_iff htotals log).1 ⟨log', hend⟩
    exact ⟨hversion, hstamp, sums, htotals, haccepts, rfl⟩
  · rintro ⟨hversion, hstamp, sums, htotals, haccepts, rfl⟩
    obtain ⟨log', hend⟩ := (exists_foldlM_sums_iff htotals log).2 ⟨haccepts, rfl⟩
    exact ⟨log', mergeFile_eq_ok_iff.2 ⟨hversion, hstamp, sums, htotals, _, hend, rfl⟩⟩

end Data

/-! ### Both files -/

/-- What becomes of a unit with a data file, or without one. -/
inductive Completed : Option (List UInt8) → Coverage → Coverage → Prop
  /-- Without a data file nothing changes. -/
  | missing (c : Coverage) : Completed none c c
  /-- A data file of the unit is merged if no function refuses its sum. -/
  | merged {bytes : List UInt8} {c : Coverage} {file : DataFile}
      {sums : Std.ExtTreeMap Ident FunctionData} (hdecode : decodeData bytes = .ok file)
      (hversion : file.version = c.version) (hstamp : file.stamp = c.stamp)
      (htotals : Totals sums file.functions) (haccepts : AcceptsAll c.functions sums) :
      Completed (some bytes) c { c with
        functions := mergeSums c.functions sums, runs := file.runs
        programs := file.programs.length, status := .merged }

/-- A unit is read from its notes file and then completed by its data file. -/
theorem exists_read_iff (paths : UnitPaths) {notes : List UInt8} {data : Option (List UInt8)}
    (log : List Warning) {c : Coverage} : (∃ log', read paths notes data log = .ok c log') ↔
      ∃ file symbols functions, decodeNotes notes = .ok (file, symbols) ∧
        BuiltFrom functions file.functions ∧
        Completed data (unitOf paths file symbols functions) c := by
  constructor
  · rintro ⟨log', h⟩
    obtain ⟨c₀, log₀, hnotes, hend⟩ := bind_eq_ok_iff.1 h
    obtain ⟨file, symbols, functions, hfile, hbuilt, rfl⟩ :=
      (exists_ofNotes_iff paths log).1 ⟨log₀, hnotes⟩
    refine ⟨file, symbols, functions, hfile, hbuilt, ?_⟩
    cases data with
    | none =>
      cases hend
      exact .missing _
    | some bytes =>
      obtain ⟨d, hdecode, hmerge⟩ := withData_eq_ok_iff.1 hend
      obtain ⟨hversion, hstamp, sums, htotals, haccepts, rfl⟩ :=
        (exists_mergeFile_iff log₀).1 ⟨log', hmerge⟩
      exact .merged hdecode hversion hstamp htotals haccepts
  · rintro ⟨file, symbols, functions, hfile, hbuilt, hcompleted⟩
    obtain ⟨log₀, hnotes⟩ := (exists_ofNotes_iff paths log).2
      ⟨file, symbols, functions, hfile, hbuilt, rfl⟩
    cases hcompleted with
    | missing => exact ⟨log₀, bind_eq_ok_iff.2 ⟨_, log₀, hnotes, rfl⟩⟩
    | merged hdecode hversion hstamp htotals haccepts =>
      obtain ⟨log', hmerge⟩ := (exists_mergeFile_iff log₀).2
        ⟨hversion, hstamp, _, htotals, haccepts, rfl⟩
      exact ⟨log', bind_eq_ok_iff.2 ⟨_, log₀, hnotes, withData_eq_ok_iff.2 ⟨_, hdecode, hmerge⟩⟩⟩

end Coverage

end CoverageFlow
