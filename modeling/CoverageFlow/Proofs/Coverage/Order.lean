import CoverageFlow.Proofs.Coverage.Reading
import CoverageFlow.Proofs.Coverage.Reports
import CoverageFlow.Proofs.Reader.Segments

/-!
# The order of functions

The functions of a notes file may come in any order. Another order gives other symbols to the names
of source files, and nothing else: every function has the same records with names for symbols, so it
is built in both orders or in none, and it is the same with names for symbols. Data files mention
functions by their identifiers, and reports mention files by their names.

No two functions may have the same identifier, since of two such functions the last one counts.

## Main definitions

* `FunctionRecord.SameNamed`: records that are the same but for their order and their symbols.

## Main results

* `Coverage.BuiltFrom.of_sameNamed`: the functions that such records are built into.
* `Coverage.SameUnit.exists_completed`: a data file makes the same of the same units.
* `Coverage.order_does_not_matter`: reading a notes file whose functions are in another order.
-/

open scoped Computability

namespace CoverageFlow

/-! ### Names in place of symbols -/

namespace FunctionRecord

variable {φ ψ χ : Type}

theorem mapFiles_mapFiles (record : FunctionRecord φ) (f : φ → ψ) (g : ψ → χ) :
    (record.mapFiles f).mapFiles g = record.mapFiles (g ∘ f) := by
  have hline : Line.mapFiles g ∘ Line.mapFiles f = Line.mapFiles (g ∘ f) := by
    funext l
    cases l <;> rfl
  have hlines : LinesRecord.mapFiles g ∘ LinesRecord.mapFiles f = LinesRecord.mapFiles (g ∘ f) := by
    funext r
    simp only [Function.comp_apply, LinesRecord.mapFiles, List.map_map, hline]
  simp only [mapFiles, List.map_map, hlines]
  rfl

theorem mapFiles_id (record : FunctionRecord φ) : record.mapFiles id = record := by
  have hline : Line.mapFiles (id : φ → φ) = id := by
    funext l
    cases l <;> rfl
  have hlines : LinesRecord.mapFiles (id : φ → φ) = id := by
    funext r
    rw [LinesRecord.mapFiles, hline, List.map_id]
    rfl
  rw [mapFiles, hlines, List.map_id]
  rfl

/-- Records are the same but for their order and for the numbers of symbols, which are all known.
No two of them are about the same function. -/
structure SameNamed (t : SymbolTable) (records : List (FunctionRecord Symbol)) (t' : SymbolTable)
    (records' : List (FunctionRecord Symbol)) : Prop where
  perm : (records.map (mapFiles t.name)).Perm (records'.map (mapFiles t'.name))
  nodup : (records.map fun record => record.ident).Nodup
  pooled : ∀ record ∈ records, record.Pooled t
  pooled' : ∀ record ∈ records', record.Pooled t'

namespace SameNamed

variable {t t' : SymbolTable} {records records' : List (FunctionRecord Symbol)}
  {record : FunctionRecord Symbol}

theorem symm (h : SameNamed t records t' records') : SameNamed t' records' t records where
  perm := h.perm.symm
  nodup := by
    have hidents := h.perm.map fun record => record.ident
    rw [List.map_map, List.map_map] at hidents
    exact hidents.nodup_iff.1 h.nodup
  pooled := h.pooled'
  pooled' := h.pooled

/-- Every record is the same as some other one. -/
theorem exists_mem (h : SameNamed t records t' records') (hrecord : record ∈ records) :
    ∃ record' ∈ records', record.mapFiles t.name = record'.mapFiles t'.name := by
  obtain ⟨record', hmem, heq⟩ := List.mem_map.1 (h.perm.subset (List.mem_map_of_mem hrecord))
  exact ⟨record', hmem, heq.symm⟩

end SameNamed

/-- If no two records are about the same function, each is the last one about its own. -/
theorem last?_eq_some_iff {records : List (FunctionRecord Symbol)}
    (h : (records.map fun record => record.ident).Nodup) {record : FunctionRecord Symbol}
    {ident : Ident} : last? records ident = some record ↔
      record ∈ records ∧ record.ident = ident := by
  refine ⟨of_last?_eq_some, ?_⟩
  rintro ⟨hmem, rfl⟩
  obtain ⟨last, hlast⟩ := exists_last?_iff.2 ⟨record, hmem, rfl⟩
  obtain ⟨hlastmem, hident⟩ := of_last?_eq_some hlast
  rw [hlast, List.inj_on_of_nodup_map h hlastmem hmem hident]

end FunctionRecord

namespace Coverage

open FunctionRecord

variable {t t' : SymbolTable} {records records' : List (FunctionRecord Symbol)}
  {functions functions' : Std.ExtTreeMap Ident FunctionGraph}

/-! ### Building -/

theorem BuiltFrom.exists_sameNamed (h : BuiltFrom functions records)
    (hsame : SameNamed t records t' records') :
    ∃ functions', BuiltFrom functions' records' := by
  refine exists_builtFrom fun record' hrecord' => ?_
  obtain ⟨record, hrecord, hnames⟩ := hsame.symm.exists_mem hrecord'
  have hwithout : record'.withoutFiles = record.withoutFiles := by
    rw [← record'.withoutFiles_mapFiles t'.name, hnames, record.withoutFiles_mapFiles]
  rw [← FunctionGraph.exists_ofRecord_withoutFiles_iff, hwithout,
    FunctionGraph.exists_ofRecord_withoutFiles_iff]
  exact h.builds record hrecord

theorem BuiltFrom.exists_named_eq (h : BuiltFrom functions records)
    (h' : BuiltFrom functions' records') (hsame : SameNamed t records t' records') {ident : Ident}
    {f : FunctionGraph} (hf : functions[ident]? = some f) :
    ∃ f', functions'[ident]? = some f' ∧ f.named t = f'.named t' := by
  obtain ⟨record, hlast, hbuilt⟩ := h.getElem?_eq_some_iff.1 hf
  obtain ⟨hrecord, rfl⟩ := of_last?_eq_some hlast
  obtain ⟨record', hrecord', hnames⟩ := hsame.exists_mem hrecord
  obtain ⟨f', hbuilt'⟩ := h'.builds record' hrecord'
  have hident : record'.ident = record.ident := congrArg (fun r => r.ident) hnames.symm
  refine ⟨f', h'.getElem?_eq_some_iff.2 ⟨record', ?_, hbuilt'⟩, ?_⟩
  · exact (last?_eq_some_iff hsame.symm.nodup).2 ⟨hrecord', hident⟩
  · exact FunctionGraph.named_eq_of_ofRecord hbuilt hbuilt' (hsame.pooled record hrecord)
      (hsame.pooled' record' hrecord') hnames

/-- The functions that are built do not depend on the order of the records. -/
theorem BuiltFrom.of_sameNamed (h : BuiltFrom functions records)
    (h' : BuiltFrom functions' records') (hsame : SameNamed t records t' records') :
    (functions.map fun _ f => f.named t) = functions'.map fun _ f => f.named t' := by
  refine Std.ExtTreeMap.ext_getElem? fun {ident} => ?_
  rw [Std.ExtTreeMap.getElem?_map, Std.ExtTreeMap.getElem?_map]
  cases hf : functions[ident]? with
  | some f =>
    obtain ⟨f', hf', hnamed⟩ := h.exists_named_eq h' hsame hf
    rw [hf', Option.map_some, Option.map_some, hnamed]
  | none =>
    cases hf' : functions'[ident]? with
    | none => rfl
    | some f' =>
      obtain ⟨f, hf₀, -⟩ := h'.exists_named_eq h hsame.symm hf'
      rw [hf] at hf₀
      cases hf₀

/-! ### Merging -/

theorem SameUnit.exists_named_eq {c c' : Coverage} (h : c.SameUnit c') {ident : Ident}
    {f' : FunctionGraph} (hf' : c'.functions[ident]? = some f') :
    ∃ f, c.functions[ident]? = some f ∧ f.named c.symbols = f'.named c'.symbols := by
  have hnamed := congrArg (fun m => m[ident]?) h.functions
  simp only [namedFunctions, Std.ExtTreeMap.getElem?_map, hf', Option.map_some,
    Option.map_eq_some_iff] at hnamed
  exact hnamed

theorem SameUnit.acceptsAll {c c' : Coverage} (h : c.SameUnit c')
    {sums : Std.ExtTreeMap Ident FunctionData} (haccepts : AcceptsAll c.functions sums) :
    AcceptsAll c'.functions sums := by
  intro ident f' data hf' hdata
  obtain ⟨f, hf, hnamed⟩ := h.exists_named_eq hf'
  have hrest : f.withoutFiles = f'.withoutFiles := congrArg FunctionGraph.Named.rest hnamed
  rw [← FunctionGraph.accepts_withoutFiles, ← hrest, FunctionGraph.accepts_withoutFiles]
  exact haccepts ident f data hf hdata

theorem map_named_mergeSums (t : SymbolTable) (functions : Std.ExtTreeMap Ident FunctionGraph)
    (sums : Std.ExtTreeMap Ident FunctionData) :
    ((mergeSums functions sums).map fun _ f => f.named t) =
      (functions.map fun _ f => f.named t).map fun ident x =>
        sums[ident]?.elim x fun data => { x with rest := x.rest.afterMerge data } := by
  refine Std.ExtTreeMap.ext_getElem? fun {ident} => ?_
  simp only [mergeSums, Std.ExtTreeMap.getElem?_map, Option.map_map]
  congr 1
  funext f
  cases sums[ident]? with
  | none => rfl
  | some data => exact FunctionGraph.named_afterMerge t f data

/-- A data file makes the same of units that are the same. -/
theorem SameUnit.exists_completed {c₀ c₀' c : Coverage} {data : Option (List UInt8)}
    (h : c₀.SameUnit c₀') (hc : Completed data c₀ c) :
    ∃ c', Completed data c₀' c' ∧ c.SameUnit c' := by
  cases hc with
  | missing => exact ⟨c₀', .missing c₀', h⟩
  | @merged _ _ file sums hdecode hversion hstamp htotals haccepts =>
    have hrest := h.rest
    refine ⟨_, .merged hdecode ?_ ?_ htotals (h.acceptsAll haccepts), ?_, ?_⟩
    · rw [hversion, hrest]
    · rw [hstamp, hrest]
    · refine (map_named_mergeSums c₀.symbols c₀.functions sums).trans ?_
      refine Eq.trans ?_ (map_named_mergeSums c₀'.symbols c₀'.functions sums).symm
      exact congrArg (Std.ExtTreeMap.map _) h.functions
    · rw [hrest]

/-! ### Reading -/

section Read

open NotesDecoder

variable {o : ByteOrder} {version : Version} {stamp : UInt32} {fs fs' : List (List UInt32)}
  {marked : Bool} {bytes : List UInt8} {file : NotesFile Symbol} {symbols : SymbolTable}

/-- Every unit that is read is safe. -/
theorem safe_of_read {paths : UnitPaths} {data : Option (List UInt8)} {log log' : List Warning}
    {c : Coverage} (h : read paths bytes data log = .ok c log') : c.Safe := by
  obtain ⟨c', _, hread, hc⟩ | ⟨e, _, hread, -⟩ := delivers_read paths bytes data log
  · rw [h] at hread
    cases hread
    exact hc
  · rw [h] at hread
    cases hread

/-- If every symbol stands for a name, records can be told with names for symbols. -/
theorem exists_of_mapFiles_resolve? {records : List (FunctionRecord String)}
    (h : file.mapFiles symbols.resolve? = NotesFile.mapFiles some ⟨version, stamp, records⟩) :
    ∃ functions, file = ⟨version, stamp, functions⟩ ∧
      functions.map (mapFiles symbols.name) = records := by
  obtain ⟨version', stamp', functions⟩ := file
  injection h with hversion hstamp hfunctions
  subst hversion hstamp
  refine ⟨functions, rfl, ?_⟩
  have hnamed := congrArg (List.map (mapFiles (·.getD unknownName))) hfunctions
  simp only [List.map_map, Function.comp_def, mapFiles_mapFiles, Option.getD_some] at hnamed
  exact Eq.trans hnamed ((List.map_congr_left fun r _ => r.mapFiles_id).trans (List.map_id _))

/-- With names for symbols, the records of a notes file are what its functions mean. -/
theorem exists_decodeNotes {meaning : List UInt32 → FunctionGroup String}
    (hfs : ∀ ws ∈ fs, ws ∈ NotesLanguage.function o)
    (hmeaning : ∀ ws ∈ fs, Means o ws (meaning ws)) (version : Version) (stamp : UInt32)
    (marked : Bool) : ∃ functions symbols,
      decodeNotes (Writer.notesOf o version stamp fs marked) =
        .ok (⟨version, stamp, functions⟩, symbols) ∧
      functions.map (mapFiles symbols.name) = fs.map fun ws => (meaning ws).record := by
  have hheader := Reader.ofBytes_header o .notes version stamp
    (Writer.words o fs.flatten ++ Writer.ending o marked)
  obtain ⟨file, s, hfile, hnames⟩ := notesFile_of_means hfs hmeaning
    (s := ⟨⟨.notes, o, version, stamp, 12, _⟩, .empty⟩) rfl rfl rfl
  obtain ⟨functions, rfl, hnamed⟩ := exists_of_mapFiles_resolve? hnames
  exact ⟨functions, s.symbols, bind_eq_ok.2 ⟨_, hheader, by rw [hfile]; rfl⟩,
    hnamed.trans (List.map_map ..)⟩

/-- With names for symbols, the records of a notes file are those that were written. -/
theorem exists_decodeNotes_notesFile {groups : List (FunctionGroup String)}
    (hgroups : ∀ g ∈ groups, g.Writable o) (version : Version) (stamp : UInt32) (marked : Bool) :
    ∃ functions symbols, decodeNotes (Writer.notesFile o version stamp groups marked) =
        .ok (⟨version, stamp, functions⟩, symbols) ∧
      functions.map (mapFiles symbols.name) = groups.map FunctionGroup.record := by
  have hheader := Reader.ofBytes_header o .notes version stamp
    (groups.flatMap (Writer.functionGroup o) ++ Writer.ending o marked)
  rw [← List.append_assoc] at hheader
  obtain ⟨file, s, hfile, hnames⟩ := notesFile_eq_ok hgroups
    (s := ⟨⟨.notes, o, version, stamp, 12, _⟩, .empty⟩) rfl rfl rfl
  obtain ⟨functions, rfl, hnamed⟩ := exists_of_mapFiles_resolve? hnames
  exact ⟨functions, s.symbols, bind_eq_ok.2 ⟨_, hheader, by rw [hfile]; rfl⟩, hnamed⟩

/-- A notes file that is decoded consists of functions. -/
theorem exists_notesOf_of_decodeNotes (h : decodeNotes bytes = .ok (file, symbols)) :
    ∃ o version stamp fs marked, (∀ ws ∈ fs, ws ∈ NotesLanguage.function o) ∧
      bytes = Writer.notesOf o version stamp fs marked := by
  obtain ⟨r, hr, h⟩ := bind_eq_ok.1 h
  cases hfile : notesFile ⟨r, .empty⟩ with
  | error e s =>
    rw [hfile] at h
    cases h
  | ok file s =>
    obtain ⟨fs, marked, hfs, hbytes⟩ := exists_notesOf hr hfile
    exact ⟨r.order, r.version, r.stamp, fs, marked, hfs, hbytes⟩

/-- Functions in another order are decoded as the same records. -/
theorem exists_sameNamed (hfs : ∀ ws ∈ fs, ws ∈ NotesLanguage.function o)
    (h : decodeNotes (Writer.notesOf o version stamp fs marked) = .ok (file, symbols))
    (hdistinct : (file.functions.map fun record => record.ident).Nodup) (hperm : fs'.Perm fs) :
    ∃ functions' symbols', decodeNotes (Writer.notesOf o version stamp fs' marked) =
        .ok (⟨file.version, file.stamp, functions'⟩, symbols') ∧
      SameNamed symbols file.functions symbols' functions' := by
  choose! meaning hmeaning using fun ws hws => exists_means (hfs ws hws)
  obtain ⟨functions, symbols, hdecode, hnamed⟩ :=
    exists_decodeNotes hfs hmeaning version stamp marked
  obtain ⟨functions', symbols', hdecode', hnamed'⟩ := exists_decodeNotes
    (fun ws hws => hfs ws (hperm.subset hws)) (fun ws hws => hmeaning ws (hperm.subset hws))
    version stamp marked
  cases h.symm.trans hdecode
  refine ⟨functions', symbols', hdecode', ?_, hdistinct, pooled_of_decodeNotes hdecode,
    pooled_of_decodeNotes hdecode'⟩
  rw [hnamed, hnamed']
  exact hperm.symm.map _

/-- What is read from functions in one order is read from them in any other. -/
theorem exists_read_sameUnit {records' : List (FunctionRecord Symbol)} {symbols' : SymbolTable}
    {bytes' : List UInt8} (h : decodeNotes bytes = .ok (file, symbols))
    (h' : decodeNotes bytes' = .ok (⟨file.version, file.stamp, records'⟩, symbols'))
    (hsame : SameNamed symbols file.functions symbols' records') {paths : UnitPaths}
    {data : Option (List UInt8)} {log log' : List Warning} {c : Coverage}
    (hread : read paths bytes data log = .ok c log') :
    ∃ c' log'', read paths bytes' data log = .ok c' log'' ∧ c.SameUnit c' := by
  obtain ⟨file, symbols, functions, hdecode, hbuilt, hcompleted⟩ :=
    (exists_read_iff paths log).1 ⟨log', hread⟩
  cases hdecode.symm.trans h
  obtain ⟨functions', hbuilt'⟩ := hbuilt.exists_sameNamed hsame
  have hunit : (unitOf paths file symbols functions).SameUnit
      (unitOf paths ⟨file.version, file.stamp, records'⟩ symbols' functions') :=
    ⟨hbuilt.of_sameNamed hbuilt' hsame, rfl⟩
  obtain ⟨c', hcompleted', hc'⟩ := hunit.exists_completed hcompleted
  obtain ⟨log'', hread'⟩ := (exists_read_iff paths log).2
    ⟨_, symbols', functions', h', hbuilt', hcompleted'⟩
  exact ⟨c', log'', hread', hc'⟩

/-- A notes file that is decoded consists of functions. If no two of them have the same identifier,
they can be put into any other order, whatever data file there is. -/
theorem order_does_not_matter (bytes : List UInt8) (file : NotesFile Symbol)
    (symbols : SymbolTable) (h : decodeNotes bytes = .ok (file, symbols))
    (hdistinct : (file.functions.map fun record => record.ident).Nodup) :
    (∃ o version stamp fs marked, (∀ ws ∈ fs, ws ∈ NotesLanguage.function o) ∧
      bytes = Writer.notesOf o version stamp fs marked) ∧
    ∀ o version stamp fs marked, (∀ ws ∈ fs, ws ∈ NotesLanguage.function o) →
      bytes = Writer.notesOf o version stamp fs marked → ∀ fs', fs'.Perm fs →
      ∀ (paths : UnitPaths) (data : Option (List UInt8)) (log : List Warning),
        ((∃ c log', read paths bytes data log = .ok c log') ↔ ∃ c' log',
          read paths (Writer.notesOf o version stamp fs' marked) data log = .ok c' log') ∧
        ∀ c log₁ c' log₂, read paths bytes data log = .ok c log₁ →
          read paths (Writer.notesOf o version stamp fs' marked) data log = .ok c' log₂ →
          c.SameByName c' := by
  refine ⟨exists_notesOf_of_decodeNotes h, ?_⟩
  rintro o version stamp fs marked hfs rfl fs' hperm paths data log
  obtain ⟨functions', symbols', h', hsame⟩ := exists_sameNamed hfs h hdistinct hperm
  refine ⟨⟨?_, ?_⟩, ?_⟩
  · rintro ⟨c, log', hread⟩
    obtain ⟨c', log'', hread', -⟩ := exists_read_sameUnit h h' hsame hread
    exact ⟨c', log'', hread'⟩
  · rintro ⟨c', log', hread'⟩
    obtain ⟨c, log'', hread, -⟩ := exists_read_sameUnit h' h hsame.symm hread'
    exact ⟨c, log'', hread⟩
  · intro c log₁ c' log₂ hread hread'
    obtain ⟨c'', log₃, hread'', hc⟩ := exists_read_sameUnit h h' hsame hread
    cases hread'.symm.trans hread''
    exact hc.sameByName (safe_of_read hread) (safe_of_read hread')

/-- The words of a function `f` whose source file has a name of one letter. -/
def sampleFunction (ident letter : UInt32) : List UInt32 :=
  Writer.recordWords .function [ident, 9, 1, 0x66, 1, letter, 1] ++
    Writer.recordWords .blocks [0, 0] ++
    (Writer.recordWords .arcs [0, 1, 4] ++ Writer.recordWords .lines [0, 0, 1, letter, 3, 0, 0])

/-- What the words mean: the file declares the function and has a line of its first block. -/
def sampleMeaning (ident : UInt32) (source : String) : FunctionGroup String where
  announcement := ⟨⟨ident⟩, 9, "f", source, 1⟩
  blocks := [0, 0]
  segments := [.arcs ⟨⟨0⟩, [⟨⟨1⟩, 4⟩]⟩, .lines ⟨⟨0⟩, [.file source, .number 3]⟩]

theorem sampleFunction_mem {letter : UInt32} {source : String}
    (h : [1, letter] ∈ nameWords .little (some source)) (ident : UInt32) :
    sampleFunction ident letter ∈ NotesLanguage.function .little := by
  have hname : [1, 0x66] ∈ NotesLanguage.name .little :=
    ⟨some "f", 1, [0x66], rfl, by decide, rfl, by decide⟩
  have hfields : [ident, 9] ++ [1, 0x66] ++ [1, letter] ++ [1] ∈ NotesLanguage.word *
      NotesLanguage.word * NotesLanguage.name .little * NotesLanguage.name .little *
        NotesLanguage.word :=
    Language.append_mem_mul (Language.append_mem_mul (Language.append_mem_mul
      (Language.append_mem_mul (a := [ident]) (b := [9]) rfl rfl) hname) ⟨_, h⟩) rfl
  have hannouncement : [ident, 9, 1, 0x66, 1, letter, 1] ∈ NotesLanguage.announcement .little :=
    Language.append_mem_mul (b := []) hfields trivial
  have harcs : [0, 1, 4] ∈ NotesLanguage.arcs := ⟨1, rfl⟩
  have hentries : [[0, 1, letter], [3]].flatten ∈ (NotesLanguage.entry .little)∗ := by
    refine Language.mem_kstar.2 ⟨_, rfl, List.forall_mem_cons.2 ⟨.inr ?_,
      List.forall_mem_singleton.2 (.inl ⟨3, by decide, rfl⟩)⟩⟩
    exact Language.append_mem_mul (a := [0]) rfl ⟨_, h⟩
  have hused : [0] ++ [[0, 1, letter], [3]].flatten ++ [0, 0] ∈
      NotesLanguage.word * (NotesLanguage.entry .little)∗ * {[0, 0]} :=
    Language.append_mem_mul (Language.append_mem_mul rfl hentries) rfl
  have hlines : [0, 0, 1, letter, 3, 0, 0] ∈ NotesLanguage.lines .little :=
    Language.append_mem_mul (b := []) hused trivial
  have hsegments : [Writer.recordWords .arcs [0, 1, 4],
      Writer.recordWords .lines [0, 0, 1, letter, 3, 0, 0]].flatten ∈
        (NotesLanguage.segment .little)∗ :=
    Language.mem_kstar.2 ⟨_, rfl, List.forall_mem_cons.2 ⟨.inl ⟨_, harcs, by decide, rfl⟩,
      List.forall_mem_singleton.2 (.inr ⟨_, hlines, show 7 < UInt32.size by decide, rfl⟩)⟩⟩
  exact Language.append_mem_mul (Language.append_mem_mul
    ⟨_, hannouncement, show 7 < UInt32.size by decide, rfl⟩ ⟨_, trivial, by decide, rfl⟩) hsegments

theorem sampleFunctions_mem : ∀ ws ∈ [sampleFunction 7 0x61, sampleFunction 8 0x62],
    ws ∈ NotesLanguage.function .little :=
  have ha : [1, 0x61] ∈ nameWords .little (some "a") := ⟨1, [0x61], rfl, by decide, rfl, by decide⟩
  have hb : [1, 0x62] ∈ nameWords .little (some "b") := ⟨1, [0x62], rfl, by decide, rfl, by decide⟩
  List.forall_mem_cons.2 ⟨sampleFunction_mem ha 7,
    List.forall_mem_singleton.2 (sampleFunction_mem hb 8)⟩

/-- Words that are written for records mean these records. -/
theorem means_of_eq {ws : List UInt32} {g : FunctionGroup String} (hg : g.Writable o)
    (h : Writer.words o ws = Writer.functionGroup o g) : Means o ws g := by
  intro rest hrest
  rw [h]
  exact reads_functionGroup hg hrest

theorem exists_read_sampleFunctions : ∃ file symbols c log,
    decodeNotes (Writer.notesOf .little ⟨0⟩ 5
      [sampleFunction 7 0x61, sampleFunction 8 0x62] true) = .ok (file, symbols) ∧
    (file.functions.map fun record => record.ident) = [⟨7⟩, ⟨8⟩] ∧
    read samplePaths (Writer.notesOf .little ⟨0⟩ 5
      [sampleFunction 7 0x61, sampleFunction 8 0x62] true) none [] = .ok c log := by
  let meaning (ws : List UInt32) : FunctionGroup String :=
    if ws = sampleFunction 7 0x61 then sampleMeaning 7 "a" else sampleMeaning 8 "b"
  have hmeaning : ∀ ws ∈ [sampleFunction 7 0x61, sampleFunction 8 0x62],
      Means .little ws (meaning ws) :=
    List.forall_mem_cons.2 ⟨means_of_eq (by decide) (by decide),
      List.forall_mem_singleton.2 (means_of_eq (by decide) (by decide))⟩
  obtain ⟨functions, symbols, hdecode, hnamed⟩ :=
    exists_decodeNotes sampleFunctions_mem hmeaning ⟨0⟩ 5 true
  have hidents := congrArg (List.map fun record => record.ident) hnamed
  rw [List.map_map] at hidents
  have hbuilds : ∀ record ∈ functions, ∃ f, FunctionGraph.ofRecord record = .ok f := by
    intro record hrecord
    have hmem := List.mem_map_of_mem (f := mapFiles symbols.name) hrecord
    rw [hnamed, List.map_cons, List.map_singleton, List.mem_pair] at hmem
    rw [← FunctionGraph.exists_ofRecord_withoutFiles_iff,
      ← record.withoutFiles_mapFiles symbols.name]
    obtain hmeans | hmeans := hmem
    · rw [hmeans]
      exact ⟨_, by cbv⟩
    · rw [hmeans]
      exact ⟨_, by cbv⟩
  obtain ⟨built, hbuilt⟩ := exists_builtFrom hbuilds
  obtain ⟨log, hread⟩ := (exists_read_iff samplePaths []).2
    ⟨_, symbols, built, hdecode, hbuilt, .missing _⟩
  exact ⟨_, symbols, _, log, hdecode, hidents, hread⟩

/-- Two functions of different files can be exchanged. -/
theorem order_does_not_matter_swap : ∃ c log c' log',
    read samplePaths (Writer.notesOf .little ⟨0⟩ 5
        [sampleFunction 7 0x61, sampleFunction 8 0x62] true) none [] = .ok c log ∧
      read samplePaths (Writer.notesOf .little ⟨0⟩ 5
        [sampleFunction 8 0x62, sampleFunction 7 0x61] true) none [] = .ok c' log' ∧
      c.SameByName c' := by
  obtain ⟨file, symbols, c, log, hdecode, hidents, hread⟩ := exists_read_sampleFunctions
  have hdistinct : (file.functions.map fun record => record.ident).Nodup := by
    rw [hidents]
    decide
  obtain ⟨-, horder⟩ := order_does_not_matter _ file symbols hdecode hdistinct
  obtain ⟨hiff, hsame⟩ := horder _ _ _ _ _ sampleFunctions_mem rfl
    [sampleFunction 8 0x62, sampleFunction 7 0x61] (.swap ..) samplePaths none []
  obtain ⟨c', log', hread'⟩ := hiff.1 ⟨c, log, hread⟩
  exact ⟨c, log, c', log', hread, hread', hsame c log c' log' hread hread'⟩

end Read

end Coverage

end CoverageFlow
