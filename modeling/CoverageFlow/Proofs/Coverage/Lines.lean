import CoverageFlow.Coverage.Open
import CoverageFlow.Proofs.Coverage.Frame
import CoverageFlow.Proofs.Coverage.Order

/-!
# Counts of lines from the records up

A record of lines switches between files as it goes, and the next record starts over with the file
of its function. So a line belongs to the last file that was named before it in its own record. The
count of a line is the sum of the counts of all blocks with a record that attributes the line to the
file. A block counts once, however often its records repeat the line, and a sum that is too large
stops at the largest count, whatever the order of the blocks.

Counts are added up by the symbols of files, and then symbols get the names of the files. Were two
symbols to have the same name, the counts of the first would be lost. The table of a unit holds no
name twice and knows the files of all lines, so adding up by names straight away does the same.

## Main definitions

* `LinesRecord.Attributes`, `FunctionRecord.Attributes`: the lines that records give to a file.
* `LineCounts.IsClampedSum`: a count is the sum of others, or the largest count.
* `Coverage.ReadFrom`: the units that are read from a notes file.
* `Coverage.countsBySymbol`, `Coverage.countsBySource`: counts added up by symbols, then named.
* `Coverage.lineCount?`: the count of a line in the report about a unit.

## Main results

* `NamedLines.mem_pairs_ofRecords`: the lines of a block are those that its records attribute.
* `LineCounts.isClampedSum_foldl`: counts of lines are sums over the blocks that cover them.
* `Coverage.countsBySource_eq`: two ways to add up the counts of a unit.
* `Coverage.lineCount_of_records`: the counts of lines, from the bytes of a notes file.
-/

namespace CoverageFlow

variable {φ : Type}

/-! ### Lines that records attribute -/

/-- The file that an entry names. -/
def Line.file? : Line φ → Option φ
  | .number _ => none
  | .file name => some name

/-- Entries attribute a line to the last file named before it, or to `source` if there is none. -/
def Line.Attributed (source : φ) (items : List (Line φ)) (file : φ) (line : UInt32) : Prop :=
  ∃ before after, items = before ++ .number line :: after ∧
    (before.filterMap Line.file?).getLast?.getD source = file

/-- A record attributes a line to a file; the first entries of a record belong to `source`. -/
def LinesRecord.Attributes (source : φ) (r : LinesRecord φ) (file : φ) (line : UInt32) : Prop :=
  Line.Attributed source r.items file line

/-- Some record about a block attributes a line to a file. -/
def FunctionRecord.Attributes (record : FunctionRecord φ) (b : ℕ) (file : φ) (line : UInt32) :
    Prop :=
  ∃ r ∈ record.lines, r.block.val.toNat = b ∧ r.Attributes record.source file line

namespace Line

variable {source name file : φ} {items : List (Line φ)} {line number : UInt32}

theorem not_attributed_nil : ¬ Attributed source [] file line := by
  rintro ⟨before, after, h, -⟩
  exact List.append_ne_nil_of_right_ne_nil before (List.cons_ne_nil _ after) h.symm

/-- After its name, entries belong to another file. -/
theorem attributed_file_cons :
    Attributed source (.file name :: items) file line ↔ Attributed name items file line := by
  have hlast (before : List (Line φ)) :
      ((Line.file name :: before).filterMap file?).getLast?.getD source =
        (before.filterMap file?).getLast?.getD name := by
    rw [List.filterMap_cons]
    exact congrArg (Option.getD · source) List.getLast?_cons
  constructor
  · rintro ⟨_ | ⟨item, before⟩, after, h, hfile⟩
    · cases h
    · injection h with hitem h
      subst hitem
      exact ⟨before, after, h, (hlast before).symm.trans hfile⟩
  · rintro ⟨before, after, rfl, hfile⟩
    exact ⟨.file name :: before, after, rfl, (hlast before).trans hfile⟩

theorem attributed_number_cons : Attributed source (.number number :: items) file line ↔
    source = file ∧ number = line ∨ Attributed source items file line := by
  constructor
  · rintro ⟨_ | ⟨item, before⟩, after, h, hfile⟩
    · cases h
      exact .inl ⟨hfile, rfl⟩
    · injection h with hitem h
      subst hitem
      exact .inr ⟨before, after, h, hfile⟩
  · rintro (⟨hfile, rfl⟩ | ⟨before, after, rfl, hfile⟩)
    · exact ⟨[], items, rfl, hfile⟩
    · exact ⟨.number number :: before, after, rfl, hfile⟩

end Line

/-! ### Lines of blocks -/

namespace NamedLines

variable {lines : NamedLines} {source file file' : String} {line line' : UInt32}

theorem mem_pairs : (file, line) ∈ lines.pairs ↔ line ∈ lines.getD file ∅ := by
  simp only [pairs, List.mem_flatMap, List.mem_map, Prod.mk.injEq, Prod.exists,
    Std.ExtTreeMap.mem_toList_iff_getElem?_eq_some, Std.ExtTreeSet.mem_toList]
  rw [Std.ExtTreeMap.getD_eq_getD_getElem?]
  constructor
  · rintro ⟨_, numbers, hfile, _, hline, rfl, rfl⟩
    rwa [hfile, Option.getD_some]
  · intro hline
    cases hfile : lines[file]? with
    | none =>
      rw [hfile, Option.getD_none] at hline
      exact absurd hline Std.ExtTreeSet.not_mem_empty
    | some numbers =>
      rw [hfile, Option.getD_some] at hline
      exact ⟨file, numbers, hfile, line, hline, rfl, rfl⟩

/-- No line of a block is listed twice. -/
theorem nodup_pairs (lines : NamedLines) : lines.pairs.Nodup :=
  nodup_flatMap_toList lines

theorem mem_pairs_insert : (file', line') ∈ (lines.insert file line).pairs ↔
    file = file' ∧ line = line' ∨ (file', line') ∈ lines.pairs := by
  rw [mem_pairs, mem_pairs]
  exact mem_getD_insert

/-- A record adds the lines that it attributes. -/
theorem mem_pairs_record {items : List (Line String)} :
    (file, line) ∈ (lines.record source items).pairs ↔
      (file, line) ∈ lines.pairs ∨ Line.Attributed source items file line := by
  induction items generalizing lines source with
  | nil => exact (or_iff_left Line.not_attributed_nil).symm
  | cons item items ih =>
    cases item with
    | file name => rw [record, ih, Line.attributed_file_cons]
    | number number =>
      rw [record, ih, Line.attributed_number_cons, mem_pairs_insert, or_assoc, or_left_comm]

/-- The lines of a block are those that its records attribute. -/
theorem mem_pairs_ofRecords {records : List (LinesRecord String)} {b : ℕ} :
    (file, line) ∈ (ofRecords source records b).pairs ↔
      ∃ r ∈ records, r.block.val.toNat = b ∧ r.Attributes source file line := by
  have hfold (rs : List (LinesRecord String)) (lines : NamedLines) :
      (file, line) ∈ (rs.foldl (fun lines r => lines.record source r.items) lines).pairs ↔
        (file, line) ∈ lines.pairs ∨ ∃ r ∈ rs, r.Attributes source file line := by
    induction rs generalizing lines with
    | nil => simp
    | cons r rs ih =>
      rw [List.foldl_cons, ih, mem_pairs_record, or_assoc, List.exists_mem_cons_iff]
      rfl
  have hempty : (file, line) ∉ pairs ∅ := by
    rw [mem_pairs]
    simp
  rw [ofRecords, hfold, or_iff_right hempty]
  simp only [List.mem_filter, decide_eq_true_eq, and_assoc]

end NamedLines

/-! ### Sums over blocks -/

namespace LineCounts

variable {counts : LineCounts String} {count : Count} {spot spot' : String × UInt32}

/-- The count of a line. -/
def at? (counts : LineCounts String) (spot : String × UInt32) : Option Count :=
  counts[spot.1]?.bind fun lines => lines[spot.2]?

theorem at?_add : (counts.add count spot').at? spot =
    if spot' = spot then some (((counts.at? spot).getD 0).addClamped count)
    else counts.at? spot := by
  obtain ⟨file, line⟩ := spot
  obtain ⟨file', line'⟩ := spot'
  rw [at?, at?, add, getElem?_adjust]
  by_cases hfile : file' = file
  · subst hfile
    rw [if_pos rfl, Option.bind_some, getElem?_adjust]
    -- A file without a count has no lines yet.
    have hlines : (counts.getD file' ∅)[line]? = counts[file']?.bind fun lines => lines[line]? := by
      rw [Std.ExtTreeMap.getD_eq_getD_getElem?]
      cases counts[file']? with
      | none => exact Std.ExtTreeMap.getElem?_empty
      | some lines => rfl
    by_cases hline : line' = line
    · subst hline
      rw [if_pos rfl, if_pos rfl, Std.ExtTreeMap.getD_eq_getD_getElem?, hlines]
    · rw [if_neg hline, if_neg fun h => hline (Prod.mk.inj h).2, hlines]
  · rw [if_neg hfile, if_neg fun h => hfile (Prod.mk.inj h).1]

/-- A count is added to each line of a block once. -/
theorem at?_addAll (counts : LineCounts String) (block : NamedLines × Count)
    (spot : String × UInt32) : (counts.addAll block).at? spot =
      if spot ∈ block.1.pairs then some (((counts.at? spot).getD 0).addClamped block.2)
      else counts.at? spot := by
  have hfold (spots : List (String × UInt32)) (hspots : spots.Nodup) (counts : LineCounts String) :
      (spots.foldl (add block.2) counts).at? spot = if spot ∈ spots then
        some (((counts.at? spot).getD 0).addClamped block.2) else counts.at? spot := by
    induction spots generalizing counts with
    | nil => simp
    | cons spot' spots ih =>
      obtain ⟨hspot', hspots⟩ := List.nodup_cons.1 hspots
      rw [List.foldl_cons, ih hspots, at?_add]
      by_cases h : spot' = spot
      · subst h
        simp [hspot']
      · simp [h, Ne.symm h]
  exact hfold _ block.1.nodup_pairs counts

/-- There is a count if there are any to be added, and it is their sum or the largest count. -/
structure IsClampedSum (counts : List Count) (o : Option Count) : Prop where
  isSome : o.isSome = true ↔ counts ≠ []
  toNat : ∀ count ∈ o, count.toNat = min (UInt64.size - 1) (counts.map UInt64.toNat).sum

theorem isClampedSum_nil : IsClampedSum [] none where
  isSome := by simp
  toNat := by simp

theorem IsClampedSum.append {counts : List Count} {o : Option Count} (h : IsClampedSum counts o)
    (count : Count) :
    IsClampedSum (counts ++ [count]) (some ((o.getD 0).addClamped count)) where
  isSome := by simp
  toNat := by
    have hsum : (o.getD 0).toNat = min (UInt64.size - 1) (counts.map UInt64.toNat).sum := by
      cases o with
      | none =>
        have hnil : counts = [] := by simpa using h.isSome
        rw [hnil]
        rfl
      | some total => exact h.toNat total rfl
    rintro _ ⟨⟩
    rw [Count.toNat_addClamped, hsum, List.map_append, List.sum_append, List.map_singleton,
      List.sum_singleton]
    omega

/-- Counts of lines are sums over the blocks that cover them. -/
theorem isClampedSum_foldl (blocks : List (NamedLines × Count)) (spot : String × UInt32) :
    IsClampedSum ((blocks.filter fun block => spot ∈ block.1.pairs).map Prod.snd)
      ((blocks.foldl addAll ∅).at? spot) := by
  suffices h : ∀ (before : List Count) (counts : LineCounts String),
      IsClampedSum before (counts.at? spot) → IsClampedSum
        (before ++ (blocks.filter fun block => spot ∈ block.1.pairs).map Prod.snd)
        ((blocks.foldl addAll counts).at? spot) from h [] ∅ isClampedSum_nil
  induction blocks with
  | nil =>
    intro before counts h
    rwa [List.filter_nil, List.map_nil, List.append_nil]
  | cons block blocks ih =>
    intro before counts h
    rw [List.foldl_cons, List.filter_cons]
    have hadd := counts.at?_addAll block spot
    by_cases hspot : spot ∈ block.1.pairs
    · rw [if_pos hspot] at hadd
      rw [if_pos (decide_eq_true hspot), List.map_cons, List.append_cons]
      exact ih _ _ (hadd ▸ h.append block.2)
    · rw [if_neg hspot] at hadd
      rw [if_neg (by simpa using hspot)]
      exact ih _ _ (hadd ▸ h)

end LineCounts

/-! ### Units -/

namespace Coverage

variable {notes : List UInt8} {c : Coverage}

/-- The units that are read from a notes file: with or without a data file, from their bytes or from
a file tree. -/
inductive ReadFrom (notes : List UInt8) : Coverage → Prop
  | bytes {paths : UnitPaths} {data : Option (List UInt8)} {log log' : List Warning}
      {c : Coverage} (h : read paths notes data log = .ok c log') : ReadFrom notes c
  | stored {files : FileTree} {path : Path} {paths : UnitPaths} {modified : ℤ}
      {log log' : List Warning} {c : Coverage} (hpaths : UnitPaths.ofPath path = .ok paths)
      (hnotes : files.find? paths.notesPath = some ⟨notes, modified⟩)
      (h : openFrom files path log = .ok c log') : ReadFrom notes c

/-- Beside a stored notes file, a unit is completed from the data file if there is one. -/
theorem completed_of_mergeStored {c₀ : Coverage} {stored : StoredFile} {files : FileTree}
    {log log' : List Warning} (h : c₀.mergeStored stored files log = .ok c log') :
    ∃ data, Completed data c₀ c := by
  rw [mergeStored] at h
  cases hdata : files.find? c₀.paths.dataPath with
  | none =>
    rw [hdata] at h
    obtain ⟨⟨⟩, log₁, -, h⟩ := bind_eq_ok_iff.1 h
    cases h
    exact ⟨none, .missing _⟩
  | some data =>
    rw [hdata] at h
    obtain ⟨log₁, h⟩ : ∃ log₁, c₀.withData data.content log₁ = .ok c log' := by
      dsimp only at h
      split at h
      · obtain ⟨⟨⟩, log₁, -, h⟩ := bind_eq_ok_iff.1 h
        exact ⟨log₁, h⟩
      · exact ⟨log, h⟩
    obtain ⟨d, hd, hmerge⟩ := withData_eq_ok_iff.1 h
    obtain ⟨hversion, hstamp, sums, htotals, haccepts, rfl⟩ :=
      (exists_mergeFile_iff log₁).1 ⟨log', hmerge⟩
    exact ⟨some data.content, .merged hd hversion hstamp htotals haccepts⟩

/-- However it is read, a unit is that of its notes file, completed or not. -/
theorem ReadFrom.completed (h : ReadFrom notes c) : ∃ paths data file symbols functions,
    decodeNotes notes = .ok (file, symbols) ∧ BuiltFrom functions file.functions ∧
      Completed data (unitOf paths file symbols functions) c := by
  cases h with
  | @bytes paths data log log' c h =>
    obtain ⟨file, symbols, functions, hread⟩ := (exists_read_iff paths log).1 ⟨log', h⟩
    exact ⟨paths, data, file, symbols, functions, hread⟩
  | @stored files path paths modified log log' c hpaths hnotes h =>
    obtain ⟨paths', log₁, hpaths', h⟩ := bind_eq_ok_iff.1 h
    rw [hpaths] at hpaths'
    cases hpaths'
    rw [hnotes] at h
    obtain ⟨c₀, log₂, hread, h⟩ := bind_eq_ok_iff.1 h
    obtain ⟨file, symbols, functions, hdecode, hbuilt, rfl⟩ :=
      (exists_ofNotes_iff paths _).1 ⟨log₂, hread⟩
    obtain ⟨data, hcompleted⟩ := completed_of_mergeStored h
    exact ⟨paths, data, file, symbols, functions, hdecode, hbuilt, hcompleted⟩

/-- Completing a unit changes nothing of a function but what is known about its counts. -/
theorem Completed.exists_same {data : Option (List UInt8)} {c₀ : Coverage}
    (h : Completed data c₀ c) {ident : Ident} {f : FunctionGraph}
    (hf : c.functions[ident]? = some f) : ∃ f₀ counts merged statistics,
      c₀.functions[ident]? = some f₀ ∧ f = { f₀ with counts, merged, statistics } := by
  cases h with
  | missing => exact ⟨f, f.counts, f.merged, f.statistics, hf, rfl⟩
  | @merged _ _ _ sums _ _ _ _ _ =>
    rw [mergeSums, Std.ExtTreeMap.getElem?_map, Option.map_eq_some_iff] at hf
    obtain ⟨f₀, hf₀, rfl⟩ := hf
    cases sums[ident]? with
    | none => exact ⟨f₀, f₀.counts, f₀.merged, f₀.statistics, hf₀, rfl⟩
    | some sum =>
      obtain ⟨counts, merged, statistics, hafter⟩ := f₀.after_eq [sum]
      exact ⟨f₀, counts, merged, statistics, hf₀, hafter⟩

theorem Completed.symbols_eq {data : Option (List UInt8)} {c₀ : Coverage}
    (h : Completed data c₀ c) : c.symbols = c₀.symbols := by
  cases h <;> rfl

/-- Every function of a unit is what counts make of the graph of the last record about it. -/
theorem ReadFrom.exists_record (h : ReadFrom notes c) :
    ∃ file, decodeNotes notes = .ok (file, c.symbols) ∧ ∀ f ∈ c.functionList,
      ∃ record f₀ counts merged statistics,
        FunctionRecord.last? file.functions f.ident = some record ∧
        record.Pooled c.symbols ∧ FunctionGraph.ofRecord record = .ok f₀ ∧
        f = { f₀ with counts, merged, statistics } := by
  obtain ⟨paths, data, file, symbols, functions, hdecode, hbuilt, hcompleted⟩ := h.completed
  obtain rfl : c.symbols = symbols := hcompleted.symbols_eq
  refine ⟨file, hdecode, fun f hf => ?_⟩
  obtain ⟨ident, hf⟩ := mem_functionList.1 hf
  obtain ⟨f₀, counts, merged, statistics, hf₀, rfl⟩ := hcompleted.exists_same hf
  obtain ⟨record, hlast, hbuild⟩ := hbuilt.getElem?_eq_some_iff.1 hf₀
  have hident : f₀.ident = ident := hbuilt.ident_eq hf₀
  have hpooled := pooled_of_decodeNotes hdecode record (FunctionRecord.of_last?_eq_some hlast).1
  exact ⟨record, f₀, counts, merged, statistics, hident ▸ hlast, hpooled, hbuild, rfl⟩

/-- The table of a unit knows the files of all its functions. -/
theorem ReadFrom.knows (h : ReadFrom notes c) :
    ∀ f ∈ c.functionList, ∀ x, f.Mentions x → c.symbols.Knows x := by
  obtain ⟨file, -, hrecord⟩ := h.exists_record
  intro f hf x hx
  obtain ⟨record, f₀, counts, merged, statistics, -, hpooled, hbuild, rfl⟩ := hrecord f hf
  exact hpooled.knows x (FunctionGraph.mentions_of_ofRecord hbuild hx)

/-- The functions of a unit are ordered by their identifiers. -/
theorem ReadFrom.pairwise_functionList (h : ReadFrom notes c) :
    c.functionList.Pairwise fun f g => f.ident.val < g.ident.val := by
  obtain ⟨paths, data, file, symbols, functions, -, hbuilt, hcompleted⟩ := h.completed
  refine List.pairwise_map.1 (pairwise_toList fun ident f hf => ?_)
  obtain ⟨f₀, counts, merged, statistics, hf₀, rfl⟩ := hcompleted.exists_same hf
  have hident : f₀.ident = ident := hbuilt.ident_eq hf₀
  exact hident

/-! ### Counts by symbols -/

/-- The counts that are added to lines, one by one. -/
def deposits (c : Coverage) : List ((Symbol × UInt32) × Count) :=
  (c.functionList.flatMap countedBlocks).flatMap fun (block, count) =>
    block.lines.pairs.map (·, count)

/-- The counts of the lines of each file, by the file's symbol. -/
def countsBySymbol (c : Coverage) : LineCounts Symbol :=
  (c.functionList.flatMap countedBlocks).foldl
    (fun lines (block, count) => block.lines.pairs.foldl (LineCounts.add count) lines) ∅

/-- The count of each line of each file: added up by symbols, and given the names of the files. Of
two files with the same name the last would count. -/
def countsBySource (c : Coverage) : LineCounts String :=
  .ofList (c.countsBySymbol.toList.map fun entry => (c.fileName entry.1, entry.2)) compare

/-- Counts are deposited block by block, and for a block line by line. -/
theorem foldl_deposits {β : Type} (add : Count → β → Symbol × UInt32 → β) (b : β) :
    c.deposits.foldl (fun b deposit => add deposit.2 b deposit.1) b =
      (c.functionList.flatMap countedBlocks).foldl
        (fun b (block, count) => block.lines.pairs.foldl (add count) b) b := by
  simp only [deposits, List.foldl_flatMap, List.foldl_map]

theorem mentions_of_mem_deposits {deposit : (Symbol × UInt32) × Count}
    (h : deposit ∈ c.deposits) : ∃ f ∈ c.functionList, f.Mentions deposit.1.1 := by
  obtain ⟨block, hblock, h⟩ := List.mem_flatMap.1 h
  obtain ⟨f, hf, hblock⟩ := List.mem_flatMap.1 hblock
  obtain ⟨b, -, rfl⟩ := List.mem_map.1 hblock
  obtain ⟨spot, hspot, rfl⟩ := List.mem_map.1 h
  exact ⟨f, hf, .inr ⟨b, LineMap.mem_of_mem_pairs hspot⟩⟩

/-- If every file is known, counts can be added up by names straight away. -/
theorem countsBySource_eq (h : ∀ f ∈ c.functionList, ∀ x, f.Mentions x → c.symbols.Knows x) :
    c.countsBySource = c.countsByLine := by
  have hknows : ∀ deposit ∈ c.deposits, c.symbols.Knows deposit.1.1 := fun deposit hdeposit =>
    have ⟨f, hf, hmentions⟩ := mentions_of_mem_deposits hdeposit
    h f hf _ hmentions
  have hcomp := foldl_adjust_comp (fun deposit : (Symbol × UInt32) × Count => deposit.1.1) ∅
    (fun deposit lines => adjust lines deposit.1.2 0 (Count.addClamped · deposit.2))
    (g := c.fileName) fun a ha b hb => (hknows a ha).name_inj (hknows b hb)
  rw [countsBySource, countsBySymbol, ← foldl_deposits, countsByLine, ← foldl_deposits]
  exact hcomp.symm

/-! ### Counts of lines -/

/-- The count of a line in the report about a unit, which is collected by symbols. -/
def lineCount? (c : Coverage) (name : String) (line : UInt32) : Option Count :=
  c.countsBySource[name]?.bind fun lines => lines[line]?

/-- The last record about a function attributes a line to a file, for one of its blocks. -/
def Attributes (c : Coverage) (file : NotesFile Symbol) (f : FunctionGraph) (b : Fin f.size)
    (name : String) (line : UInt32) : Prop :=
  ∃ record, FunctionRecord.last? file.functions f.ident = some record ∧
    (record.mapFiles c.symbols.name).Attributes b name line

section Report

variable {file : NotesFile Symbol} {record : FunctionRecord Symbol}

/-- The lines of a block are those that the last record about its function attributes. -/
theorem mem_pairs_iff_attributes {f : FunctionGraph}
    (hlast : FunctionRecord.last? file.functions f.ident = some record)
    (hlines : ∀ b, (f.blocks.get b).lines.named c.symbols = .ofRecords
      (c.symbols.name record.source) (record.lines.map (LinesRecord.mapFiles c.symbols.name)) b)
    (b : Fin f.size) (name : String) (line : UInt32) :
    (name, line) ∈ ((f.blocks.get b).lines.named c.symbols).pairs ↔
      c.Attributes file f b name line := by
  rw [hlines, NamedLines.mem_pairs_ofRecords]
  constructor
  · intro hr
    exact ⟨record, hlast, hr⟩
  · rintro ⟨record', hlast', hr⟩
    rw [hlast] at hlast'
    cases hlast'
    exact hr

open scoped Classical in
/-- The count of a line is the sum over the blocks that the records attribute it to. -/
theorem isClampedSum_lineCount? {name : String} {line : UInt32}
    (hknows : ∀ f ∈ c.functionList, ∀ x, f.Mentions x → c.symbols.Knows x)
    (hcovers : ∀ f ∈ c.functionList, ∀ b,
      (name, line) ∈ ((f.blocks.get b).lines.named c.symbols).pairs ↔
        c.Attributes file f b name line) :
    LineCounts.IsClampedSum (c.functionList.flatMap fun f =>
        ((List.finRange f.size).filter fun b => c.Attributes file f b name line).map fun b =>
          (f.counts.blocks.get b).getD 0)
      (c.lineCount? name line) := by
  have hsum := LineCounts.isClampedSum_foldl ((c.functionList.map
    (FunctionGraph.named c.symbols)).flatMap FunctionGraph.Named.countedLines) (name, line)
  rw [← FunctionGraph.Named.countsByLine, ← countsByLine_eq_named hknows,
    ← countsBySource_eq hknows, List.flatMap_map, List.filter_flatMap, List.map_flatMap] at hsum
  rw [List.flatMap_congr fun f hf => ?_]
  · exact hsum
  · rw [countedLines_named, countedBlocks, List.map_map, List.filter_map, List.map_map]
    refine congrArg (List.map _) (List.filter_congr fun b _ => ?_)
    exact decide_eq_decide.2 (hcovers f hf b).symm

end Report

open scoped Classical in
/-- A line is reported if the records of some block attribute it to the file. Its count is the sum
of the counts of all these blocks, of which those that are not known are zero, or the largest count
if the sum is larger. No file is lost when symbols are replaced by names. -/
theorem lineCount_of_records (h : ReadFrom notes c) :
    c.countsBySource = c.countsByLine ∧
    ∃ file, decodeNotes notes = .ok (file, c.symbols) ∧ ∀ name line,
      ((c.lineCount? name line).isSome = true ↔
        ∃ f ∈ c.functionList, ∃ b, c.Attributes file f b name line) ∧
      ∀ count, c.lineCount? name line = some count → count.toNat = min (UInt64.size - 1)
        (c.functionList.map fun f =>
          ∑ b with c.Attributes file f b name line, f.counts.value (.inl b)).sum := by
  obtain ⟨file, hdecode, hrecord⟩ := h.exists_record
  refine ⟨countsBySource_eq h.knows, file, hdecode, fun name line => ?_⟩
  have hcovers : ∀ f ∈ c.functionList, ∀ b,
      (name, line) ∈ ((f.blocks.get b).lines.named c.symbols).pairs ↔
        c.Attributes file f b name line := by
    intro f hf b
    obtain ⟨record, f₀, counts, merged, statistics, hlast, hpooled, hbuild, rfl⟩ := hrecord f hf
    have hlines (b : Fin f₀.size) := FunctionGraph.named_lines_of_ofRecord hbuild hpooled b
    exact mem_pairs_iff_attributes hlast hlines b name line
  have hsum := isClampedSum_lineCount? h.knows hcovers
  refine ⟨hsum.isSome.trans ?_, fun count hcount => (hsum.toNat count hcount).trans ?_⟩
  · simp
  · rw [List.map_flatMap, List.flatMap_def, List.sum_flatten, List.map_map]
    simp only [Function.comp_def, List.map_map, FunctionGraph.toNat_getD]
    rfl

/-! ### A sample -/

/-- A function with an arc from its entry to its exit. -/
def sampleFunctionIn (source : String) (ident line : UInt32) (lines : List (LinesRecord String)) :
    FunctionGroup String where
  announcement := ⟨⟨ident⟩, 9, "f", source, line⟩
  blocks := [0, 0]
  segments := .arcs ⟨⟨0⟩, [⟨⟨1⟩, 4⟩]⟩ :: lines.map .lines

/-- Two functions of a file `a` and one of a file `b`. Three blocks have line 3 of `a`, and one of
them has it twice; two blocks have line 3 of `b`. -/
def sampleSources : List (FunctionGroup String) := [
  sampleFunctionIn "a" 7 4
    [⟨⟨0⟩, [.file "a", .number 3]⟩, ⟨⟨1⟩, [.number 3, .file "b", .number 3]⟩],
  sampleFunctionIn "a" 8 2 [⟨⟨0⟩, [.number 3, .file "a", .number 3]⟩],
  sampleFunctionIn "b" 9 1 [⟨⟨1⟩, [.number 3]⟩]]

/-- The counts of the functions of `a`. -/
def sampleCounts : List DataUnit :=
  [.function ⟨⟨7⟩, 9, [3]⟩, .function ⟨⟨8⟩, 9, [4]⟩, .object ⟨0, 2, 1, 7, 4, 4⟩]

/-- The files of the sample under symbols that can be computed with. -/
def sampleTable : SymbolTable where
  names := [unknownName, "a", "b"]
  nodup := by decide
  head := rfl

def sampleRecords : List (FunctionRecord Symbol) :=
  sampleSources.map fun g => g.record.mapFiles fun name => ⟨sampleTable.names.idxOf name⟩

theorem pooled_sampleRecords : ∀ record ∈ sampleRecords, record.Pooled sampleTable := by
  have hfiles : ∀ record ∈ sampleRecords, record.source.index < sampleTable.names.length ∧
      ∀ r ∈ record.lines, ∀ item ∈ r.items, ∀ x ∈ item.file?,
        x.index < sampleTable.names.length := by decide
  have hblocks : ∀ record ∈ sampleRecords, record.blocks.length < UInt32.size := by decide
  refine fun record hrecord => ⟨hblocks record hrecord, fun x hx => ?_⟩
  obtain ⟨hsource, hlines⟩ := hfiles record hrecord
  have hindex : x.index < sampleTable.names.length := by
    obtain rfl | ⟨r, hr, hitem⟩ := hx
    · exact hsource
    · exact hlines r hr _ hitem x rfl
  exact ⟨_, List.getElem?_eq_getElem hindex⟩

/-- The reports about the sample: the sum of three counts for line 3 of `a`, that of a count and an
unknown one for line 3 of `b`, and the functions of each file, those of `a` by line. -/
structure ReportsSample (xs : List FunctionGraph.Named) : Prop where
  countA : (FunctionGraph.Named.countsByLine xs).at? ("a", 3) = some 10
  countB : (FunctionGraph.Named.countsByLine xs).at? ("b", 3) = some 3
  groupA : (FunctionGraph.Named.byFile xs)["a"]?.map (List.map fun x => x.rest.ident) =
    some [⟨8⟩, ⟨7⟩]
  groupB : (FunctionGraph.Named.byFile xs)["b"]?.map (List.map fun x => x.rest.ident) = some [⟨9⟩]

theorem exists_merged_sampleRecords : ∃ functions log c log',
    sampleRecords.foldlM (addFunction default) ∅ [] = .ok functions log ∧
      mergeFile (unitOf samplePaths ⟨⟨0⟩, 5, sampleRecords⟩ sampleTable functions)
        (DataFile.ofUnits ⟨0⟩ 5 sampleCounts) [] = .ok c log' ∧
      ReportsSample (c.namedFunctions.toList.map Prod.snd) :=
  ⟨_, _, _, _, by cbv, by cbv, by cbv, by cbv, by cbv, by cbv⟩

/-- The sample is read; its symbols may be others than those computed with. -/
theorem exists_read_sampleSources : ∃ c log,
    read samplePaths (Writer.notesFile .little ⟨0⟩ 5 sampleSources true)
        (some (Writer.dataFile .little ⟨0⟩ 5 sampleCounts true)) [] = .ok c log ∧
      ReportsSample (c.functionList.map (FunctionGraph.named c.symbols)) := by
  obtain ⟨functions', _, c', log', hadded, hmerged, hreports⟩ := exists_merged_sampleRecords
  have hbuilt' := builtFrom_empty.foldlM hadded
  have hwritable : ∀ g ∈ sampleSources, g.Writable .little := by decide
  obtain ⟨records, symbols, hdecode, hnamed⟩ := exists_decodeNotes_notesFile hwritable ⟨0⟩ 5 true
  have hdata : decodeData (Writer.dataFile .little ⟨0⟩ 5 sampleCounts true) =
      .ok (DataFile.ofUnits ⟨0⟩ 5 sampleCounts) :=
    decodeData_dataFile (by decide) (by decide) ⟨⟨0, 2, 1, 7, 4, 4⟩, by decide⟩ ..
  -- The records that are read have the same names, under symbols that are not known here.
  have hsame : FunctionRecord.SameNamed sampleTable sampleRecords symbols records := by
    refine ⟨?_, by decide, pooled_sampleRecords, pooled_of_decodeNotes hdecode⟩
    rw [hnamed]
    exact .of_eq (by decide)
  obtain ⟨functions, hbuilt⟩ := hbuilt'.exists_sameNamed hsame
  have hunit : (unitOf samplePaths ⟨⟨0⟩, 5, sampleRecords⟩ sampleTable functions').SameUnit
      (unitOf samplePaths ⟨⟨0⟩, 5, records⟩ symbols functions) :=
    ⟨hbuilt'.of_sameNamed hbuilt hsame, rfl⟩
  obtain ⟨hversion, hstamp, sums, htotals, haccepts, rfl⟩ :=
    (exists_mergeFile_iff []).1 ⟨log', hmerged⟩
  obtain ⟨c, hcompleted, hc⟩ :=
    hunit.exists_completed (.merged hdata hversion hstamp htotals haccepts)
  obtain ⟨log, hread⟩ := (exists_read_iff samplePaths []).2
    ⟨_, symbols, functions, hdecode, hbuilt, hcompleted⟩
  refine ⟨c, log, hread, ?_⟩
  rwa [map_named_functionList, ← hc.functions]

open scoped Classical in
/-- Three blocks of two functions have line 3 of `a`, with counts 3, 3 and 4. -/
theorem lineCount_of_records_sample : ∃ c log file,
    read samplePaths (Writer.notesFile .little ⟨0⟩ 5 sampleSources true)
        (some (Writer.dataFile .little ⟨0⟩ 5 sampleCounts true)) [] = .ok c log ∧
      decodeNotes (Writer.notesFile .little ⟨0⟩ 5 sampleSources true) = .ok (file, c.symbols) ∧
      c.countsBySource = c.countsByLine ∧
      c.lineCount? "a" 3 = some 10 ∧ c.lineCount? "b" 3 = some 3 ∧
      (c.functionList.map fun f =>
        ∑ b with c.Attributes file f b "a" 3, f.counts.value (.inl b)).sum = 10 := by
  obtain ⟨c, log, hread, hreports⟩ := exists_read_sampleSources
  obtain ⟨heq, file, hfile, hlines⟩ := lineCount_of_records (.bytes hread)
  have hcount (name : String) (line : UInt32) : c.lineCount? name line =
      (FunctionGraph.Named.countsByLine
        (c.functionList.map (FunctionGraph.named c.symbols))).at? (name, line) := by
    rw [lineCount?, heq, countsByLine_eq_named (ReadFrom.bytes hread).knows]
    rfl
  have hsum := (hlines "a" 3).2 10 ((hcount "a" 3).trans hreports.countA)
  refine ⟨c, log, file, hread, hfile, heq, (hcount "a" 3).trans hreports.countA,
    (hcount "b" 3).trans hreports.countB, ?_⟩
  have hten : (10 : Count).toNat = 10 := rfl
  have hsize : 10 < UInt64.size - 1 := by decide
  omega

end Coverage

end CoverageFlow
