import CoverageFlow.Coverage.Merge
import CoverageFlow.Coverage.Report
import CoverageFlow.Coverage.Snapshot
import CoverageFlow.Proofs.Graph.Safety
import CoverageFlow.Proofs.Reader.DataLanguage
import CoverageFlow.Proofs.Reader.NotesLanguage

/-!
# Reading coverage from any bytes

Whatever the bytes of a notes file and of a data file are, reading them ends with the coverage of a
unit or with an error that tells what is wrong with the bytes. Everything that the functions of the
unit are asked for afterwards can be answered.

## Main definitions

* `Logged.Delivers`: a computation ends with a value that has a property, or with an error about
  the input.
* `Coverage.Safe`: every function of a unit is safe.
* `Coverage.Closed`: the reports about a unit look up no names but its own.

## Main results

* `Logged.Delivers.bind`, `Logged.Delivers.foldlM`: computations that are put together.
* `Coverage.delivers_ofNotes`, `Coverage.delivers_withData`: the two parts of reading.
* `Coverage.Safe.closed`: the reports about a unit whose functions are safe.
* `Coverage.read_safe`: reading any bytes.
-/

namespace CoverageFlow

/-! ### Errors about the input -/

/-- An error that is about the bytes of a file, not about the access to it. -/
def Failure.IsAboutInput (e : Failure) : Prop :=
  e.error.category ≠ .io

namespace Logged

variable {α β : Type} {P : α → Prop} {Q : β → Prop} {x : Logged α} {f : α → Logged β}

/-- A computation ends with a value that has a property, or with an error about the input. -/
def Delivers (x : Logged α) (P : α → Prop) : Prop :=
  ∀ log, (∃ a log', x log = .ok a log' ∧ P a) ∨
    ∃ e log', x log = .error e log' ∧ e.IsAboutInput

theorem delivers_pure {a : α} (ha : P a) : Delivers (pure a) P :=
  fun log => .inl ⟨a, log, rfl, ha⟩

theorem delivers_throw {e : Failure} (he : e.IsAboutInput) : Delivers (throw e) P :=
  fun log => .inr ⟨e, log, rfl, he⟩

theorem delivers_warn (w : Warning) : Delivers (warn w) fun _ => True :=
  fun _ => .inl ⟨(), _, rfl, trivial⟩

theorem delivers_ofExcept {r : Except Failure α} (hok : ∀ a, r = .ok a → P a)
    (herror : ∀ e, r = .error e → e.IsAboutInput) : Delivers (ofExcept r) P := by
  cases r with
  | ok a => exact delivers_pure (hok a rfl)
  | error e => exact delivers_throw (herror e rfl)

theorem Delivers.passing (h : Delivers x P) (place : Place) : Delivers (passing place x) P := by
  intro log
  obtain ⟨a, log', hx, ha⟩ | ⟨e, log', hx, he⟩ := h log
  · exact .inl ⟨a, log', by rw [Logged.passing, hx], ha⟩
  · exact .inr ⟨e.passing place, log', by rw [Logged.passing, hx], he⟩

theorem Delivers.bind (hx : Delivers x P) (hf : ∀ a, P a → Delivers (f a) Q) :
    Delivers (x >>= f) Q := by
  intro log
  obtain ⟨a, log', h, ha⟩ | ⟨e, log', h, he⟩ := hx log
  · rw [run_bind, h]
    exact hf a ha log'
  · rw [run_bind, h]
    exact .inr ⟨e, log', rfl, he⟩

theorem Delivers.foldlM {l : List β} {f : α → β → Logged α} {a : α} (ha : P a)
    (hf : ∀ b ∈ l, ∀ a, P a → Delivers (f a b) P) : Delivers (l.foldlM f a) P := by
  induction l generalizing a with
  | nil => exact delivers_pure ha
  | cons b l ih =>
    obtain ⟨hb, hl⟩ := List.forall_mem_cons.1 hf
    rw [List.foldlM_cons]
    exact (hb a ha).bind fun a' ha' => ih ha' hl

end Logged

/-! ### Errors of the readers -/

/-- A computation with two parts fails where one of them does. -/
theorem bind_eq_error {ε α β : Type} {x : Except ε α} {f : α → Except ε β} {e : ε} :
    x >>= f = .error e ↔ x = .error e ∨ ∃ a, x = .ok a ∧ f a = .error e := by
  cases x with
  | error e' =>
    constructor
    · rintro ⟨⟩
      exact .inl rfl
    · rintro (⟨⟨⟩⟩ | ⟨_, ⟨⟩, -⟩)
      rfl
  | ok a =>
    constructor
    · exact fun h => .inr ⟨a, rfl, h⟩
    · rintro (⟨⟨⟩⟩ | ⟨_, ⟨⟩, h⟩)
      exact h

/-- Errors that are told differently are errors all the same. -/
theorem mapError_eq_error {ε ε' α : Type} {f : ε → ε'} {x : Except ε α} {e : ε'} :
    x.mapError f = .error e ↔ ∃ e', x = .error e' ∧ f e' = e := by
  cases x with
  | error e' =>
    constructor
    · rintro ⟨⟩
      exact ⟨e', rfl, rfl⟩
    · rintro ⟨_, ⟨⟩, rfl⟩
      rfl
  | ok a =>
    constructor
    · rintro ⟨⟩
    · rintro ⟨_, ⟨⟩, -⟩

/-- A loop fails in one of its steps. -/
theorem exists_of_foldlM_eq_error {ε α β : Type} {f : β → α → Except ε β} {as : List α} {b : β}
    {e : ε} (h : as.foldlM f b = .error e) : ∃ a ∈ as, ∃ b, f b a = .error e := by
  induction as generalizing b with
  | nil => cases h
  | cons a as ih =>
    rw [List.foldlM_cons] at h
    obtain hfirst | ⟨b', -, hrest⟩ := bind_eq_error.1 h
    · exact ⟨a, List.mem_cons_self, b, hfirst⟩
    · obtain ⟨a', ha', hstep⟩ := ih hrest
      exact ⟨a', List.mem_cons_of_mem _ ha', hstep⟩

theorem Reader.isAboutInput_of_ofBytes {bytes : List UInt8} {e : Failure}
    (h : ofBytes bytes = .error e) : e.IsAboutInput := by
  unfold ofBytes at h
  split at h
  · next rest =>
    dsimp only at h
    split at h
    · cases h
      rintro ⟨⟩
    · next fileType o _ =>
      split at h
      · cases h
      · next hheader =>
        -- Both words of the header are fields, and a field fails only where the file ends.
        cases h
        obtain ⟨x, stray, hunread, hshort⟩ := Writer.exists_words o rest
        have hword (stray : List UInt8) := @Decoder.realizes_word {e | e.category ≠ .io} o stray
          (by decide)
        have hrun := (hword stray).bind_eq fun version =>
          (hword stray).map_eq fun stamp => (version, stamp)
        exact (hrun x ⟨fileType, o, ⟨0⟩, 0, 4, rest⟩ ⟨rfl, hunread, hshort⟩).fails _ _ hheader
  · cases h
    rintro ⟨⟩

/-! ### Snapshots of functions -/

theorem LineMap.json_congr {lines : LineMap} {t t' : SymbolTable}
    (h : ∀ x ∈ lines, t.name x = t'.name x) : lines.json t = lines.json t' := by
  refine congrArg Json.obj (List.map_congr_left fun (file, numbers) hentry => ?_)
  dsimp only
  rw [h file (LineMap.mem_of_mem_toList hentry)]

/-- A snapshot tells the names of the files that the function mentions, and no others. -/
theorem FunctionGraph.json_congr {f : FunctionGraph} {t t' : SymbolTable}
    (h : ∀ x, f.Mentions x → t.name x = t'.name x) : f.json t = f.json t' := by
  have hblocks : f.blockJson t = f.blockJson t' := by
    funext b
    rw [blockJson, blockJson, LineMap.json_congr fun x hx => h x (.inr ⟨b, hx⟩)]
  rw [json, json, hblocks, h f.source (.inl rfl)]

namespace Coverage

open Logged

/-! ### Notes -/

theorem pooled_of_decodeNotes {bytes : List UInt8} {file : NotesFile Symbol}
    {symbols : SymbolTable} (h : decodeNotes bytes = .ok (file, symbols)) :
    ∀ record ∈ file.functions, record.Pooled symbols := by
  obtain ⟨reader, -, h⟩ := bind_eq_ok.1 h
  split at h
  · next hfile =>
    cases h
    exact NotesDecoder.pooled_of_notesFile hfile
  · cases h

theorem isAboutInput_of_decodeNotes {bytes : List UInt8} {e : Failure}
    (h : decodeNotes bytes = .error e) : e.IsAboutInput := by
  obtain hbytes | ⟨r, -, h⟩ := bind_eq_error.1 h
  · exact Reader.isAboutInput_of_ofBytes hbytes
  split at h
  · cases h
  · next hfile =>
    cases h
    by_cases htype : r.fileType = .notes
    -- The language of notes files lists the reasons for which a file is refused.
    · obtain ⟨x, stray, hr⟩ := r.exists_shows
      have hrun := NotesDecoder.recognizes_notesFile (s := ⟨r, .empty⟩) hr htype
      obtain he | ⟨fault, he⟩ | ⟨tag, reading, he⟩ := hrun.fails _ _ hfile
      all_goals
        rw [Failure.IsAboutInput, he]
        rintro ⟨⟩
    · rw [NotesDecoder.notesFile, run_get_bind] at hfile
      dsimp only at hfile
      rw [if_pos htype] at hfile
      cases hfile
      rintro ⟨⟩

/-- All functions of a unit are safe, with the names of a given table. -/
def AllSafe (functions : Std.ExtTreeMap Ident FunctionGraph) (symbols : SymbolTable) : Prop :=
  ∀ (ident : Ident) f, functions[ident]? = some f → FunctionGraph.Safe f symbols

/-- Everything that a unit is asked for can be answered. -/
def Safe (c : Coverage) : Prop :=
  AllSafe c.functions c.symbols

theorem AllSafe.insert {functions : Std.ExtTreeMap Ident FunctionGraph} {symbols : SymbolTable}
    {f : FunctionGraph} (hfunctions : AllSafe functions symbols) (hf : f.Safe symbols)
    (ident : Ident) : AllSafe (functions.insert ident f) symbols := by
  intro ident' f' hf'
  rw [Std.ExtTreeMap.getElem?_insert] at hf'
  split at hf'
  · cases hf'
    exact hf
  · exact hfunctions ident' f' hf'

theorem delivers_addFunction {path : Path} {functions : Std.ExtTreeMap Ident FunctionGraph}
    {record : FunctionRecord Symbol} {symbols : SymbolTable} (hrecord : record.Pooled symbols)
    (hfunctions : AllSafe functions symbols) :
    Delivers (addFunction path functions record) fun functions => AllSafe functions symbols := by
  refine Delivers.bind (P := fun f => f.Safe symbols)
    (Delivers.passing (delivers_ofExcept (fun f hf => ?_) fun e he => ?_) _) fun f hf => ?_
  · exact FunctionGraph.safe_of_ofRecord (mapError_eq_ok.1 hf) hrecord
  · obtain ⟨e, hgraph, rfl⟩ := mapError_eq_error.1 he
    obtain ⟨defect, -, rfl⟩ := mapError_eq_error.1 hgraph
    rintro ⟨⟩
  · dsimp only
    split
    · exact (delivers_warn _).bind fun _ _ => delivers_pure (hfunctions.insert hf _)
    · exact delivers_pure (hfunctions.insert hf _)

theorem delivers_ofNotes (paths : UnitPaths) (bytes : List UInt8) :
    Delivers (ofNotes paths bytes) Safe := by
  have hdecode : Delivers (.ofExcept (decodeNotes bytes)) fun x =>
      ∀ record ∈ x.1.functions, record.Pooled x.2 :=
    delivers_ofExcept (fun _ => pooled_of_decodeNotes) fun _ => isAboutInput_of_decodeNotes
  refine (hdecode.passing _).bind fun (file, symbols) hfile => ?_
  refine Delivers.bind (Delivers.foldlM (P := fun functions => AllSafe functions symbols) ?_
    fun record hrecord functions => delivers_addFunction (hfile record hrecord))
      fun functions hfunctions => delivers_pure hfunctions
  intro ident f hf
  rw [Std.ExtTreeMap.getElem?_empty] at hf
  cases hf

/-! ### Data -/

theorem isAboutInput_of_decodeData {bytes : List UInt8} {e : Failure}
    (h : decodeData bytes = .error e) : e.IsAboutInput := by
  obtain hbytes | ⟨r, -, h⟩ := bind_eq_error.1 h
  · exact Reader.isAboutInput_of_ofBytes hbytes
  split at h
  · cases h
  · next hfile =>
    cases h
    by_cases htype : r.fileType = .data
    · obtain ⟨x, stray, hr⟩ := r.exists_shows
      have hrun := Decoder.recognizes_dataFile hr htype
      obtain he | ⟨tag, reading, he⟩ := hrun.fails _ _ hfile
      all_goals
        rw [Failure.IsAboutInput, he]
        rintro ⟨⟩
    · rw [Decoder.dataFile, run_get_bind] at hfile
      dsimp only at hfile
      rw [if_pos htype] at hfile
      cases hfile
      rintro ⟨⟩

theorem category_ne_io_of_add {name : String} {a b : FunctionData} {e : Error}
    (h : a.add name b = .error e) : e.category ≠ .io := by
  rw [FunctionData.add] at h
  split_ifs at h
  · cases h
    rintro ⟨⟩
  · cases h
    rintro ⟨⟩
  · split at h
    · cases h
      rintro ⟨⟩
    · cases h

theorem category_ne_io_of_addRecord {name : Ident → String}
    {sums : Std.ExtTreeMap Ident FunctionData} {record : FunctionData} {e : Error}
    (h : addRecord name sums record = .error e) : e.category ≠ .io := by
  rw [addRecord] at h
  split at h
  · cases h
  · obtain h | ⟨_, _, ⟨⟩⟩ := bind_eq_error.1 h
    exact category_ne_io_of_add h

theorem category_ne_io_of_totals {name : Ident → String} {records : List FunctionData} {e : Error}
    (h : totals name records = .error e) : e.category ≠ .io := by
  obtain ⟨record, -, sums, h⟩ := exists_of_foldlM_eq_error h
  exact category_ne_io_of_addRecord h

theorem isAboutInput_of_merge {f f' : FunctionGraph} {data : FunctionData} {e : Failure}
    (h : f.merge data = .error e f') : e.IsAboutInput := by
  -- Three checks come before the counts are written; then the completion may fail.
  obtain ⟨-, -, rfl | rfl | rfl⟩ | ⟨-, o, c, -, rfl, -⟩ := FunctionGraph.merge_eq_error h
  · rintro ⟨⟩
  · rintro ⟨⟩
  · rintro ⟨⟩
  · cases o <;> rintro ⟨⟩

theorem delivers_mergeFunction {c : Coverage} (hc : c.Safe) (data : FunctionData) :
    Delivers (c.mergeFunction data) Safe := by
  rw [mergeFunction]
  split
  · exact (delivers_warn _).bind fun _ _ => delivers_pure hc
  · next f hf =>
    split
    · next f' hmerge =>
      exact delivers_pure (AllSafe.insert hc ((hc _ _ hf).of_merge hmerge) _)
    · next hmerge => exact delivers_throw (isAboutInput_of_merge hmerge)

theorem delivers_mergeFile {c : Coverage} (hc : c.Safe) (file : DataFile) :
    Delivers (c.mergeFile file) Safe := by
  rw [mergeFile]
  dsimp only
  split
  · exact Delivers.bind (P := fun _ => False) (delivers_throw (by rintro ⟨⟩)) fun _ => False.elim
  split
  · exact Delivers.bind (P := fun _ => False) (delivers_throw (by rintro ⟨⟩)) fun _ => False.elim
  refine Delivers.bind (P := fun _ => True) (delivers_ofExcept (fun _ _ => trivial) fun e he => ?_)
    fun sums _ => ?_
  · obtain ⟨e, htotals, rfl⟩ := mapError_eq_error.1 he
    exact category_ne_io_of_totals htotals
  · exact Delivers.bind (Delivers.foldlM hc fun data _ _ hc => delivers_mergeFunction hc data)
      fun c' hc' => delivers_pure hc'

theorem delivers_withData {c : Coverage} (hc : c.Safe) (bytes : List UInt8) :
    Delivers (c.withData bytes) Safe := by
  have hdecode : Delivers (.ofExcept (decodeData bytes)) fun _ => True :=
    delivers_ofExcept (fun _ _ => trivial) fun _ => isAboutInput_of_decodeData
  exact (hdecode.bind fun file _ => delivers_mergeFile hc file).passing _

/-! ### Reports -/

theorem Safe.of_mem_functionList {c : Coverage} (hc : c.Safe) {f : FunctionGraph}
    (hf : f ∈ c.functionList) : f.Safe c.symbols := by
  obtain ⟨⟨ident, f⟩, hmem, rfl⟩ := List.mem_map.1 hf
  exact hc ident f (Std.ExtTreeMap.mem_toList_iff_getElem?_eq_some.1 hmem)

/-- The reports about a unit look up no names but those that the unit has pooled: with a table that
has more names, they are the same. -/
structure Closed (c : Coverage) : Prop where
  functionsByFile : ∀ t, c.symbols.GrowsTo t →
    { c with symbols := t }.functionsByFile = c.functionsByFile
  countsByLine : ∀ t, c.symbols.GrowsTo t →
    { c with symbols := t }.countsByLine = c.countsByLine
  reportPath : ∀ t, c.symbols.GrowsTo t → ∀ f ∈ c.functionList,
    { c with symbols := t }.reportPath f.source = c.reportPath f.source
  json : ∀ t, c.symbols.GrowsTo t → { c with symbols := t }.json = c.json

section Reports

variable {c : Coverage} {t : SymbolTable} {f : FunctionGraph}

theorem Safe.name_eq (hc : c.Safe) (ht : c.symbols.GrowsTo t) (hf : f ∈ c.functionList)
    {x : Symbol} (hx : f.Mentions x) : t.name x = c.symbols.name x :=
  ((hc.of_mem_functionList hf).knows x hx).name_eq ht

theorem Safe.functionsByFile_eq (hc : c.Safe) (ht : c.symbols.GrowsTo t) :
    { c with symbols := t }.functionsByFile = c.functionsByFile := by
  refine congrArg (Std.ExtTreeMap.map _) (List.foldl_ext _ _ _ fun groups f hf => ?_)
  rw [addToSource, addToSource, fileName, fileName, hc.name_eq ht hf (.inl rfl)]

theorem Safe.countsByLine_eq (hc : c.Safe) (ht : c.symbols.GrowsTo t) :
    { c with symbols := t }.countsByLine = c.countsByLine := by
  -- A name is looked up for every line of every block, so both loops are opened.
  refine List.foldl_ext _ _ _ fun lines (block, count) hblock => ?_
  obtain ⟨f, hf, hblock⟩ := List.mem_flatMap.1 hblock
  obtain ⟨b, -, hb⟩ := List.mem_map.1 hblock
  cases hb
  refine List.foldl_ext _ _ _ fun lines spot hspot => ?_
  have hx : f.Mentions spot.1 := .inr ⟨b, LineMap.mem_of_mem_pairs hspot⟩
  rw [addToLine, addToLine, fileName, fileName, hc.name_eq ht hf hx]

theorem Safe.reportPath_eq (hc : c.Safe) (ht : c.symbols.GrowsTo t) (hf : f ∈ c.functionList) :
    { c with symbols := t }.reportPath f.source = c.reportPath f.source :=
  congrArg c.paths.reportPath (hc.name_eq ht hf (.inl rfl))

theorem Safe.json_eq (hc : c.Safe) (ht : c.symbols.GrowsTo t) :
    { c with symbols := t }.json = c.json := by
  have hfunctions : Json.list (FunctionGraph.json t) c.functionList =
      Json.list (FunctionGraph.json c.symbols) c.functionList :=
    congrArg Json.arr (List.map_congr_left fun f hf => FunctionGraph.json_congr fun x hx =>
      hc.name_eq ht hf hx)
  rw [json, json, ← hfunctions]
  rfl

theorem Safe.closed (hc : c.Safe) : c.Closed where
  functionsByFile _ := hc.functionsByFile_eq
  countsByLine _ := hc.countsByLine_eq
  reportPath _ ht _ := hc.reportPath_eq ht
  json _ := hc.json_eq

end Reports

/-! ### Both files -/

theorem delivers_read (paths : UnitPaths) (notes : List UInt8) (data : Option (List UInt8)) :
    Delivers (read paths notes data) Safe := by
  refine (delivers_ofNotes paths notes).bind fun c hc => ?_
  cases data with
  | none => exact delivers_pure hc
  | some data => exact delivers_withData hc data

/-- The coverage of a unit with one function and without counts. -/
theorem read_of_decodeNotes {paths : UnitPaths} {bytes : List UInt8} {version : Version}
    {stamp : UInt32} {record : FunctionRecord Symbol} {symbols : SymbolTable} {f : FunctionGraph}
    (hdecode : decodeNotes bytes = .ok (⟨version, stamp, [record]⟩, symbols))
    (hf : FunctionGraph.ofRecord record = .ok f) (log : List Warning) :
    read paths bytes none log = .ok ⟨paths, version, stamp,
      (∅ : Std.ExtTreeMap Ident FunctionGraph).insert f.ident f, symbols, 0, 0, .missing⟩ log := by
  have hadd : addFunction paths.notesPath ∅ record log =
      .ok ((∅ : Std.ExtTreeMap Ident FunctionGraph).insert f.ident f) log := by
    rw [addFunction, hf]
    rfl
  have hfold : [record].foldlM (addFunction paths.notesPath) ∅ log =
      .ok ((∅ : Std.ExtTreeMap Ident FunctionGraph).insert f.ident f) log :=
    bind_eq_ok_iff.2 ⟨_, log, hadd, rfl⟩
  have hpassed : passing (.file paths.notesPath.text) (Logged.ofExcept (decodeNotes bytes)) log =
      .ok (⟨version, stamp, [record]⟩, symbols) log := by
    rw [hdecode]
    rfl
  exact bind_eq_ok_iff.2 ⟨_, log,
    bind_eq_ok_iff.2 ⟨_, log, hpassed, bind_eq_ok_iff.2 ⟨_, log, hfold, rfl⟩⟩, rfl⟩

/-- Reading any bytes ends with the coverage of a unit, or with an error that tells what is wrong
with the bytes. Whatever the functions of the unit are asked for can be answered, and no number
that was computed on the way has left its range: a reader moves by what is left at most, there is a
last block wherever arcs are added, an arc is taken off the missing ones of a tally only if the
tally counts one, and what is summed up of the calls of a function is a count. -/
theorem read_safe (paths : UnitPaths) (notes : List UInt8) (data : Option (List UInt8))
    (log : List Warning) :
    ((∃ c log', read paths notes data log = .ok c log' ∧
        c.Closed ∧ ∀ f ∈ c.functionList, f.Safe c.symbols) ∨
      ∃ e log', read paths notes data log = .error e log' ∧
        (e.error.category = .corruption ∨ e.error.category = .unexpectedTag ∨
          e.error.category = .mismatch)) ∧
    (∀ r r' : Reader, (∀ w, Decoder.word r = .ok w r' → r'.remaining + 4 = r.remaining) ∧
      ∀ count bytes, Decoder.take count r = .ok bytes r' → r'.remaining + count = r.remaining) ∧
    (∀ i, Draft.block 0 i = .error .blockOutOfRange) ∧
    (∀ {n m : ℕ} (g : Network n m) (counts : Counts n m) (s : Solver n m) (b : Fin n)
      (d : Direction) (i : Fin m), Solver.Serves g counts s b d →
        Solver.missingArc? g s b d = some i →
          ∀ d', 0 < (s.sides.side d' ((g.get i).near d')).unknown) ∧
    ∀ (f f' : FunctionGraph) (record : FunctionData), f.merge record = .ok () f' →
      ∃ s, f'.statistics = some s ∧ s.called ≤ Count.max.toNat ∧
        s.returned ≤ Count.max.toNat := by
  refine ⟨?_, fun r r' => ⟨fun w => Decoder.remaining_word, fun count bytes =>
    Decoder.remaining_take⟩, fun i => dif_neg (Nat.not_lt_zero _),
    fun g counts s b d i hserves hi => hserves.unknown_pos hi,
    fun f f' record => FunctionGraph.statistics_le_max_of_merge⟩
  obtain ⟨c, log', hread, hc⟩ | ⟨e, log', hread, he⟩ := delivers_read paths notes data log
  · exact .inl ⟨c, log', hread, hc.closed, fun f => hc.of_mem_functionList⟩
  · refine .inr ⟨e, log', hread, ?_⟩
    rw [Failure.IsAboutInput] at he
    cases hcategory : e.error.category with
    | io => exact absurd hcategory he
    | corruption => exact .inl rfl
    | unexpectedTag => exact .inr (.inl rfl)
    | mismatch => exact .inr (.inr rfl)

def samplePaths : UnitPaths where
  notesPath := ⟨"u.gcno"⟩
  dataPath := ⟨"u.gcda"⟩
  stem := "u"

/-- A function with two blocks and an arc between them. -/
def sampleGroup : FunctionGroup String where
  announcement := { ident := ⟨7⟩, checksum := 9, name := "f", source := "a.c", line := 1 }
  blocks := [0, 0]
  segments := [.arcs { source := ⟨0⟩, arcs := [⟨⟨1⟩, 4⟩] }]

/-- What `sampleGroup` is read as; its source file has some symbol. -/
def sampleRecord (source : Symbol) : FunctionRecord Symbol where
  ident := ⟨7⟩
  checksum := 9
  name := "f"
  source := source
  line := 1
  blocks := [0, 0]
  arcs := [{ source := ⟨0⟩, arcs := [⟨⟨1⟩, 4⟩] }]
  lines := []

theorem eq_sampleRecord {record : FunctionRecord Symbol} {t : SymbolTable}
    (h : record.mapFiles t.resolve? = sampleGroup.record.mapFiles some) :
    ∃ source, record = sampleRecord source := by
  obtain ⟨⟨ident, checksum, name, source, line⟩, blocks, arcs, lines⟩ := record
  injection h with hannouncement hblocks harcs hlines
  injection hannouncement with hident hchecksum hname _ hline
  subst hident hchecksum hname hline hblocks harcs
  cases List.map_eq_nil_iff.1 hlines
  exact ⟨source, rfl⟩

theorem exists_decodeNotes_sampleGroup : ∃ source symbols,
    decodeNotes (Writer.notesFile .big ⟨0⟩ 5 [sampleGroup] true) =
      .ok (⟨⟨0⟩, 5, [sampleRecord source]⟩, symbols) := by
  have hgroups : ∀ g ∈ [sampleGroup], g.Writable .big := by decide
  have hheader := Reader.ofBytes_header .big .notes ⟨0⟩ 5
    ([sampleGroup].flatMap (Writer.functionGroup .big) ++ Writer.ending .big true)
  rw [← List.append_assoc] at hheader
  obtain ⟨⟨version, stamp, functions⟩, s, hfile, hnames⟩ := NotesDecoder.notesFile_eq_ok hgroups
    (s := ⟨⟨.notes, .big, ⟨0⟩, 5, 12, _⟩, .empty⟩) rfl rfl rfl
  injection hnames with hversion hstamp hfunctions
  subst hversion hstamp
  obtain ⟨record, rest, rfl, hrecord, hrest⟩ := List.map_eq_cons_iff.1 hfunctions
  cases List.map_eq_nil_iff.1 hrest
  obtain ⟨source, rfl⟩ := eq_sampleRecord hrecord
  refine ⟨source, s.symbols, bind_eq_ok.2 ⟨_, hheader, ?_⟩⟩
  rw [hfile]
  rfl

theorem exists_read_sampleGroup : ∃ c log,
    read samplePaths (Writer.notesFile .big ⟨0⟩ 5 [sampleGroup] true) none [] = .ok c log ∧
      c.functionList ≠ [] := by
  obtain ⟨source, symbols, hdecode⟩ := exists_decodeNotes_sampleGroup
  obtain ⟨f, hf⟩ : ∃ f, FunctionGraph.ofRecord (sampleRecord source) = .ok f := ⟨_, by cbv⟩
  refine ⟨_, [], read_of_decodeNotes hdecode hf [], fun hempty => ?_⟩
  have hmem := Std.ExtTreeMap.mem_toList_iff_getElem?_eq_some.2
    (Std.ExtTreeMap.getElem?_insert_self (t := (∅ : Std.ExtTreeMap Ident FunctionGraph))
      (k := f.ident) (v := f))
  rw [functionList, List.map_eq_nil_iff] at hempty
  rw [hempty] at hmem
  cases hmem

/-- The notes of the sample are read; an empty file is not. -/
theorem read_safe_sample :
    (∃ c log,
      read samplePaths (Writer.notesFile .big ⟨0⟩ 5 [sampleGroup] true) none [] = .ok c log ∧
      c.functionList ≠ [] ∧ c.Closed ∧ ∀ f ∈ c.functionList, f.Safe c.symbols) ∧
    ∃ e log, read samplePaths [] none [] = .error e log ∧
      e.error.category = .corruption := by
  refine ⟨?_, _, _, rfl, rfl⟩
  obtain ⟨c, log, hread, hne⟩ := exists_read_sampleGroup
  obtain ⟨c', log', hread', hc⟩ | ⟨e, log', he, -⟩ := (read_safe _ _ none []).1
  · cases hread.symm.trans hread'
    exact ⟨c, log, hread, hne, hc⟩
  · cases hread.symm.trans he

end Coverage

end CoverageFlow
