import CoverageFlow.Proofs.Reader.Field
import CoverageFlow.Reader.Data
import CoverageFlow.Writer.Data

/-!
# Reading data files back

A data file is read back as the units that were written, sorted by kind. The units must be in the
order of the format: a program summary stands behind an object summary, with nothing but other
program summaries in between. A file without any object summary is taken to be cut off, so there
must be one. Files that break one of these rules are not read at all.

## Main definitions

* `DataUnit.Ordered`: the order of the format.
* `DataUnit.Writable`: what is read back.

## Main results

* `Decoder.reads_dataUnit`: a unit is read back.
* `Decoder.dataFile_eq_ok`: a data file is read back.
* `Decoder.ordered_of_dataFile_eq_ok`: nothing but data files in the order of the format is read.
-/

namespace CoverageFlow

/-! ### What can be written -/

namespace DataUnit

/-- The units follow one another, and the given one, as the format demands: a program summary only
directly behind an object summary or another program summary. -/
def Ordered : Option DataUnit → List DataUnit → Prop
  | _, [] => True
  | previous, unit :: units =>
    (unit.program? ≠ none → Decoder.allowsProgram previous = true) ∧ Ordered (some unit) units

/-- The length of every record of a unit is a word. -/
def Writable (o : ByteOrder) : DataUnit → Prop
  | .function data => Writer.Fits (Writer.counts o data)
  | .object _ | .program _ => True

instance : (previous : Option DataUnit) → (units : List DataUnit) →
    Decidable (Ordered previous units)
  | _, [] => isTrue trivial
  | previous, unit :: units =>
    have := instDecidableOrdered (some unit) units
    inferInstanceAs (Decidable
      ((unit.program? ≠ none → Decoder.allowsProgram previous = true) ∧ Ordered (some unit) units))

instance (o : ByteOrder) : (unit : DataUnit) → Decidable (unit.Writable o)
  | .function data => inferInstanceAs (Decidable (Writer.Fits (Writer.counts o data)))
  | .object _ | .program _ => isTrue trivial

end DataUnit

theorem DataFile.isEmpty_objects_ofUnits {units : List DataUnit} (version : Version)
    (stamp : UInt32) : (ofUnits version stamp units).objects.isEmpty = false ↔
      ∃ s, .object s ∈ units := by
  rw [List.isEmpty_eq_false_iff_exists_mem, ofUnits]
  refine exists_congr fun s => List.mem_filterMap.trans ⟨?_, fun hs => ⟨_, hs, rfl⟩⟩
  rintro ⟨unit, hunit, hs⟩
  cases unit with
  | object =>
    cases hs
    exact hunit
  | function => cases hs
  | program => cases hs

namespace Decoder

variable {o : ByteOrder} {rest : List UInt8}

/-! ### Bodies -/

theorem reads_functionKey (data : FunctionData) :
    Reads o functionKey (Writer.functionKey o data) [] (data.ident, data.checksum) :=
  Reads.bind (reads_word _ _) (Reads.map (reads_word _ _) _)

theorem reads_counts (data : FunctionData) :
    Reads o counts (Writer.counts o data) [] data.counts := by
  refine reads_repeatWhile (fun count _ rest r ho hr => ?_) (fun r ho hr => ?_) none
  · have hremaining : ¬ r.remaining < 8 := by
      rw [Reader.remaining, hr, List.length_append, Writer.length_long]
      omega
    rw [nextCount, run_get_bind, if_neg hremaining]
    exact Reads.map (reads_long count rest) some r ho hr
  · have hremaining : r.remaining < 8 := by
      rw [Reader.remaining, hr]
      exact Nat.zero_lt_succ 7
    rw [nextCount, run_get_bind, if_pos hremaining]
    rfl

theorem reads_summary (s : Summary) : Reads o summary (Writer.summary o s) [] s := by
  simp only [Writer.summary, List.append_assoc]
  refine Reads.bind (reads_word _ _) ?_
  refine Reads.bind (reads_word _ _) ?_
  refine Reads.bind (reads_word _ _) ?_
  refine Reads.bind (reads_long _ _) ?_
  refine Reads.bind (reads_long _ _) ?_
  exact Reads.map (reads_long _ _) _

theorem length_functionKey (data : FunctionData) : (Writer.functionKey o data).length = 8 := by
  simp only [Writer.functionKey, List.length_append, Writer.length_word]

theorem length_summary (s : Summary) : (Writer.summary o s).length = 36 := by
  simp only [Writer.summary, List.length_append, Writer.length_word, Writer.length_long]

theorem fits_functionKey (data : FunctionData) : Writer.Fits (Writer.functionKey o data) := by
  rw [Writer.Fits, length_functionKey]
  decide

theorem fits_summary (s : Summary) : Writer.Fits (Writer.summary o s) := by
  rw [Writer.Fits, length_summary]
  decide

theorem dvd_length_functionKey (data : FunctionData) :
    4 ∣ (Writer.functionKey o data).length :=
  ⟨2, length_functionKey data⟩

theorem dvd_length_counts (data : FunctionData) : 4 ∣ (Writer.counts o data).length :=
  Writer.dvd_length_flatMap (Writer.dvd_length_long o) data.counts

theorem dvd_length_summary (s : Summary) : 4 ∣ (Writer.summary o s).length :=
  ⟨9, length_summary s⟩

/-! ### Units -/

theorem reads_dataUnit {unit : DataUnit} {previous : Option DataUnit} (hunit : unit.Writable o)
    (hprevious : unit.program? ≠ none → allowsProgram previous = true) (rest : List UInt8) :
    Reads o (dataUnit previous) (Writer.dataUnit o unit) rest (some unit) := by
  intro r ho hr
  cases unit with
  | function data =>
    rw [Writer.dataUnit, List.append_assoc] at hr
    rw [dataUnit, run_get_bind, Reader.isFinished_record hr, if_neg Bool.false_ne_true, run_bind,
      record_eq_ok ho hr (fits_functionKey data) (dvd_length_functionKey data)]
    dsimp only
    rw [if_pos rfl, run_bind, within_eq_ok (reads_functionKey data) ho, Writer.dataUnit,
      List.length_append, ← Reader.skip_skip]
    exact Reads.map_record (reads_counts data) hunit (dvd_length_counts data) _
      (fun counts => some (DataUnit.function ⟨data.ident, data.checksum, counts⟩))
      (r.skip _) ho (Reader.unread_skip hr)
  | object s =>
    rw [Writer.dataUnit] at hr
    rw [dataUnit, run_get_bind, Reader.isFinished_record hr, if_neg Bool.false_ne_true, run_bind,
      record_eq_ok ho hr (fits_summary s) (dvd_length_summary s)]
    dsimp only
    rw [if_neg (by decide), if_pos rfl, run_bind, within_eq_ok (reads_summary s) ho]
    rfl
  | program s =>
    have hallowed := hprevious (Option.some_ne_none s)
    rw [Writer.dataUnit] at hr
    rw [dataUnit, run_get_bind, Reader.isFinished_record hr, if_neg Bool.false_ne_true, run_bind,
      record_eq_ok ho hr (fits_summary s) (dvd_length_summary s)]
    dsimp only
    rw [if_neg (by decide), if_neg (by decide), if_pos ⟨rfl, hallowed⟩, run_bind,
      within_eq_ok (reads_summary s) ho]
    rfl

theorem dataUnit_ending {r : Reader} (ho : r.order = o) {marked : Bool}
    (hr : r.unread = Writer.ending o marked) (previous : Option DataUnit) :
    dataUnit previous r = .ok none r := by
  rw [dataUnit, run_get_bind, Reader.isFinished_ending ho hr]
  rfl

theorem repeats_dataUnit {units : List DataUnit} (hunits : ∀ u ∈ units, u.Writable o)
    {previous : Option DataUnit} (horder : DataUnit.Ordered previous units) {marked : Bool}
    {r : Reader} (ho : r.order = o)
    (hr : r.unread = units.flatMap (Writer.dataUnit o) ++ Writer.ending o marked) :
    Repeats dataUnit previous r units (r.skip (units.flatMap (Writer.dataUnit o)).length) := by
  induction units generalizing previous r with
  | nil => exact .stop (dataUnit_ending ho hr previous)
  | cons unit units ih =>
    obtain ⟨hunit, hunits⟩ := List.forall_mem_cons.1 hunits
    rw [List.flatMap_cons, List.append_assoc] at hr
    rw [List.flatMap_cons, List.length_append, ← Reader.skip_skip]
    exact .next (reads_dataUnit hunit horder.1 _ r ho hr)
      (ih hunits horder.2 ho (Reader.unread_skip hr))

/-- A program summary anywhere else is an error at its own offset. -/
theorem dataUnit_program_eq_error {s : Summary} {previous : Option DataUnit}
    (hprevious : allowsProgram previous = false) {r : Reader} (ho : r.order = o)
    (hr : r.unread = Writer.dataUnit o (.program s) ++ rest) :
    dataUnit previous r = .error (.atPosition r.position
      (.unexpectedTag Tag.programSummary .functionDataOrSummary))
      (r.skip (Writer.dataUnit o (.program s)).length) := by
  rw [Writer.dataUnit] at hr
  rw [dataUnit, run_get_bind, Reader.isFinished_record hr, if_neg Bool.false_ne_true, run_bind,
    record_eq_ok ho hr (fits_summary s) (dvd_length_summary s)]
  dsimp only
  rw [if_neg (by decide), if_neg (by decide), hprevious, if_neg fun h => Bool.false_ne_true h.2]
  rfl

/-- If what was written for some units is read to the end, then they are in the order of the
format. -/
theorem ordered_of_repeats {units as : List DataUnit} (hunits : ∀ u ∈ units, u.Writable o)
    {previous : Option DataUnit} {bytes : List UInt8} {r r' : Reader} (ho : r.order = o)
    (hr : r.unread = units.flatMap (Writer.dataUnit o) ++ bytes)
    (hrepeats : Repeats dataUnit previous r as r') : DataUnit.Ordered previous units := by
  induction units generalizing previous r as with
  | nil => exact trivial
  | cons unit units ih =>
    obtain ⟨hunit, hunits⟩ := List.forall_mem_cons.1 hunits
    rw [List.flatMap_cons, List.append_assoc] at hr
    have hprevious : unit.program? ≠ none → allowsProgram previous = true := by
      intro hprogram
      cases unit with
      | function data => exact absurd rfl hprogram
      | object s => exact absurd rfl hprogram
      | program s =>
        refine Decidable.byContradiction fun hallowed => ?_
        have herror := dataUnit_program_eq_error (Bool.eq_false_iff.2 hallowed) ho hr
        cases hrepeats with
        | stop last => cases herror.symm.trans last
        | next first _ => cases herror.symm.trans first
    have hstep := reads_dataUnit hunit hprevious _ r ho hr
    cases hrepeats with
    | stop last => cases hstep.symm.trans last
    | next first hrest =>
      cases hstep.symm.trans first
      exact ⟨hprevious, ih hunits (r := r.skip _) ho (Reader.unread_skip hr) hrest⟩

/-! ### Files -/

/-- The units of a data file are read back, sorted by kind. -/
theorem dataFile_eq_ok {units : List DataUnit} (hunits : ∀ u ∈ units, u.Writable o)
    (horder : DataUnit.Ordered none units) (hobject : ∃ s, .object s ∈ units) {marked : Bool}
    {r : Reader} (htype : r.fileType = .data) (ho : r.order = o)
    (hr : r.unread = units.flatMap (Writer.dataUnit o) ++ Writer.ending o marked) :
    ∃ r', dataFile r = .ok (DataFile.ofUnits r.version r.stamp units) r' := by
  have hrun := (repeats_dataUnit hunits horder ho hr).repeatWhile_eq (h := yields_dataUnit)
  have hobjects := (DataFile.isEmpty_objects_ofUnits r.version r.stamp).2 hobject
  refine ⟨r.skip (units.flatMap (Writer.dataUnit o)).length, ?_⟩
  rw [dataFile, run_get_bind, htype, if_neg (not_not_intro rfl)]
  refine (run_bind _ _ r).trans ?_
  rw [hrun]
  dsimp only
  rw [hobjects]
  rfl

theorem fileType_eq_of_dataFile {r r' : Reader} {file : DataFile} (h : dataFile r = .ok file r') :
    r.fileType = .data := by
  refine Decidable.byContradiction fun htype => ?_
  rw [dataFile, run_get_bind, if_pos htype] at h
  cases h

/-- Nothing but files that are in the order of the format and have an object summary is read. -/
theorem ordered_of_dataFile_eq_ok {units : List DataUnit} (hunits : ∀ u ∈ units, u.Writable o)
    {marked : Bool} {r r' : Reader} {file : DataFile} (ho : r.order = o)
    (hr : r.unread = units.flatMap (Writer.dataUnit o) ++ Writer.ending o marked)
    (hfile : dataFile r = .ok file r') :
    DataUnit.Ordered none units ∧ ∃ s, .object s ∈ units := by
  rw [dataFile, run_get_bind, fileType_eq_of_dataFile hfile, if_neg (not_not_intro rfl)] at hfile
  obtain ⟨as, s, hrun, hfile⟩ := bind_eq_ok_iff.1 hfile
  have horder := ordered_of_repeats hunits ho hr (repeatWhile_eq_ok_iff.1 hrun)
  refine ⟨horder, ?_⟩
  have hrun' := (repeats_dataUnit hunits horder ho hr).repeatWhile_eq (h := yields_dataUnit)
  cases hrun'.symm.trans hrun
  refine (DataFile.isEmpty_objects_ofUnits r.version r.stamp).1 (Bool.eq_false_iff.2 ?_)
  intro hempty
  rw [if_pos hempty] at hfile
  cases hfile

end Decoder

end CoverageFlow
