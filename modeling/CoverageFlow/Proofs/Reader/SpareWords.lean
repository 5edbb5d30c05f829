import CoverageFlow.Proofs.Reader.DataLanguage
import CoverageFlow.Proofs.Reader.RoundTrip
import CoverageFlow.Proofs.Reader.Segments
import CoverageFlow.Proofs.Reader.Simulation

/-!
# Records with spare words

A coverage file is a header and records, and a newer compiler may put more words into a record than
are read of it. If words are appended to the announcements, the lines and the summaries of a file,
or a single word to counts that have none left over, and the lengths of these records are adjusted,
then the file is still read, as the same records and with the same names pooled. The appended words
may look like a tag, like the end of some entries or like a name: they are not looked at.

Two files are compared record by record. The readers of the two stand before corresponding records
at the same time, so every step on the one is done on the other.

## Main definitions

* `FramedRecord`: a record by its tag and the words of its body.
* `FramedRecord.GrowsTo`: a record has spare words behind the body of another one.
* `Writer.fileOf`: the bytes of a file with given records.
* `Decoded`: what the bytes of a file are read as.

## Main results

* `NotesDecoder.simulates_notesFile`, `Decoder.simulates_dataFile`: files whose records correspond.
* `Decoded.spareWords_skipped`: every file consists of records, and spare words in them change
  nothing.
-/

open scoped Computability

namespace CoverageFlow

/-! ### Records and files -/

/-- The tags of the records behind whose bodies any words may stand: announcements of functions,
lines and summaries. -/
def Tag.extensible : List Tag :=
  [.function, .lines, .objectSummary, .programSummary]

/-- A record as it stands in a file. -/
structure FramedRecord where
  tag : Tag
  /-- The words of its body. -/
  body : List UInt32
deriving DecidableEq, Inhabited

namespace FramedRecord

/-- The words of a record: its tag, the length of its body, and its body. -/
def words (r : FramedRecord) : List UInt32 :=
  Writer.recordWords r.tag r.body

/-- The length of the body is a word. -/
def Fits (r : FramedRecord) : Prop :=
  r.body.length < UInt32.size

instance (r : FramedRecord) : Decidable r.Fits :=
  inferInstanceAs (Decidable (r.body.length < UInt32.size))

/-- Words that a record can have behind its body: any words if its tag allows it, and one word
behind counts that have no word left over. -/
def Spares (r : FramedRecord) (more : List UInt32) : Prop :=
  more = [] ∨ r.tag ∈ Tag.extensible ∨ r.tag = .arcCounts ∧ Even r.body.length ∧ more.length = 1

/-- A record has spare words, possibly none, behind the body of another one. -/
structure GrowsTo (r r' : FramedRecord) : Prop where
  tag : r'.tag = r.tag
  body : ∃ more, r.Spares more ∧ r'.body = r.body ++ more
  fits : r'.Fits

theorem GrowsTo.fits_left {r r' : FramedRecord} (h : r.GrowsTo r') : r.Fits := by
  obtain ⟨more, -, hbody⟩ := h.body
  have hfits := h.fits
  rw [Fits, hbody, List.length_append] at hfits
  exact Nat.lt_of_le_of_lt (Nat.le_add_right ..) hfits

end FramedRecord

namespace Writer

variable (o : ByteOrder)

/-- The bytes of records and of the end of a file. -/
def framed (records : List FramedRecord) (marked : Bool) : List UInt8 :=
  words o (records.flatMap FramedRecord.words) ++ ending o marked

/-- The bytes of a file with given records. -/
def fileOf (fileType : FileType) (version : Version) (stamp : UInt32) (records : List FramedRecord)
    (marked : Bool) : List UInt8 :=
  header o fileType version stamp ++ framed o records marked

theorem framed_cons (r : FramedRecord) (records : List FramedRecord) (marked : Bool) :
    framed o (r :: records) marked =
      record o r.tag (words o r.body) ++ framed o records marked := by
  rw [framed, List.flatMap_cons, words_append, List.append_assoc, FramedRecord.words,
    words_recordWords]
  rfl

end Writer

namespace Reader

/-! ### Readers of corresponding files -/

/-- Two readers stand before corresponding records of two files. -/
structure Grown (r r' : Reader) : Prop where
  fileType : r'.fileType = r.fileType
  order : r'.order = r.order
  version : r'.version = r.version
  stamp : r'.stamp = r.stamp
  unread : ∃ records records' marked, List.Forall₂ FramedRecord.GrowsTo records records' ∧
    r.unread = Writer.framed r.order records marked ∧
    r'.unread = Writer.framed r.order records' marked

/-- Two readers are those of the bodies of corresponding records with a given tag. -/
def Bodies (tag : Tag) (body body' : Reader) : Prop :=
  ∃ a a' : FramedRecord, a.GrowsTo a' ∧ a.tag = tag ∧ body'.order = body.order ∧
    body.unread = Writer.words body.order a.body ∧ body'.unread = Writer.words body.order a'.body

variable {r r' body body' : Reader} {tag : Tag}

/-- Either both files end, or both readers stand before a record. -/
theorem Grown.cases (h : Grown r r') :
    (∃ marked, r.unread = Writer.ending r.order marked ∧
      r'.unread = Writer.ending r.order marked) ∨
    ∃ (a a' : FramedRecord) (records records' : List FramedRecord) (marked : Bool), a.GrowsTo a' ∧
      List.Forall₂ FramedRecord.GrowsTo records records' ∧
      r.unread = Writer.record r.order a.tag (Writer.words r.order a.body) ++
        Writer.framed r.order records marked ∧
      r'.unread = Writer.record r.order a'.tag (Writer.words r.order a'.body) ++
        Writer.framed r.order records' marked := by
  obtain ⟨_, _, marked, _ | ⟨ha, hrecords⟩, hr, hr'⟩ := h.unread
  · exact .inl ⟨marked, hr, hr'⟩
  · rw [Writer.framed_cons] at hr hr'
    exact .inr ⟨_, _, _, _, marked, ha, hrecords, hr, hr'⟩

theorem Grown.isFinished_eq (h : Grown r r') : r'.isFinished = r.isFinished := by
  obtain ⟨marked, hr, hr'⟩ | ⟨a, a', records, records', marked, -, -, hr, hr'⟩ := h.cases
  · rw [isFinished_ending rfl hr, isFinished_ending h.order hr']
  · rw [isFinished_record hr, isFinished_record hr']

theorem Grown.nextTag_eq (h : Grown r r') : r'.nextTag = r.nextTag := by
  obtain ⟨marked, hr, hr'⟩ | ⟨a, a', records, records', marked, ha, -, hr, hr'⟩ := h.cases
  · rw [nextTag, nextTag, hr, hr', h.order]
  · rw [nextTag_record rfl hr, nextTag_record h.order hr', ha.tag]

/-- The longer body has further bytes. -/
theorem Bodies.extends (h : Bodies tag body body') : ∃ extra, Extends extra body body' := by
  obtain ⟨a, a', ha, -, ho, hbody, hbody'⟩ := h
  obtain ⟨more, -, hmore⟩ := ha.body
  refine ⟨Writer.words body.order more, ho, ?_⟩
  rw [hbody', hmore, hbody, Writer.words_append]

/-- Other bodies, such as those of blocks and of arcs, are the same. -/
theorem Bodies.extends_nil (h : Bodies tag body body') (hany : tag ∉ Tag.extensible)
    (hcounts : tag ≠ .arcCounts) : Extends [] body body' := by
  obtain ⟨a, a', ha, rfl, ho, hbody, hbody'⟩ := h
  obtain ⟨more, hspares, hmore⟩ := ha.body
  obtain rfl : more = [] := hspares.resolve_right (not_or.2 ⟨hany, fun h => hcounts h.1⟩)
  refine ⟨ho, ?_⟩
  rw [hbody', hmore, hbody, List.append_nil, List.append_nil]

/-- The longer of two bodies of counts has no further count. -/
theorem Bodies.counts (h : Bodies .arcCounts body body') :
    ∃ extra, Extends extra body body' ∧ body'.remaining / 8 = body.remaining / 8 := by
  obtain ⟨extra, hextends⟩ := h.extends
  refine ⟨extra, hextends, ?_⟩
  obtain ⟨a, a', ha, htag, -, hbody, hbody'⟩ := h
  obtain ⟨more, hspares, hmore⟩ := ha.body
  rw [remaining, remaining, hbody, hbody', Writer.length_words, Writer.length_words, hmore,
    List.length_append]
  obtain rfl | hany | ⟨-, ⟨n, hn⟩, hone⟩ := hspares
  · rfl
  · exact absurd hany (htag ▸ by decide)
  · omega

/-- At the end of a file no record is read. -/
theorem isFinished_of_record {found : Tag × Reader} {s : Reader}
    (h : Decoder.record r = .ok found s) : r.isFinished = false := by
  obtain ⟨x, stray, hshows⟩ := r.exists_shows
  obtain ⟨_, y, -, -, rfl, -⟩ :=
    (Decoder.realizes_record (Set.mem_univ Error.endOfFile) x r hshows).sound found s h
  exact Bool.eq_false_iff.2 (mt hshows.isFinished_iff.1 (not_endsAt_recordWords _ _ _))

/-- Where the one file has a record, the other one has the corresponding record. -/
theorem Grown.follows_record (h : Grown r r') : Follows Grown
    (fun found found' => r.nextTag = some found.1 ∧ found'.1 = found.1 ∧
      Bodies found.1 found.2 found'.2) (Decoder.record r) (Decoder.record r') := by
  intro found s hfound
  obtain ⟨marked, hr, -⟩ | ⟨a, a', records, records', marked, ha, hrecords, hr, hr'⟩ := h.cases
  · exact absurd (isFinished_of_record hfound) (by simp [isFinished_ending rfl hr])
  · have hread := Decoder.record_eq_ok rfl hr (Writer.fits_words ha.fits_left)
      (Writer.dvd_length_words _)
    have hread' := Decoder.record_eq_ok h.order hr' (Writer.fits_words ha.fits)
      (Writer.dvd_length_words _)
    cases hfound.symm.trans hread
    have hbodies : Bodies a.tag (Decoder.bodyReader r (Writer.words r.order a.body))
        (Decoder.bodyReader r' (Writer.words r.order a'.body)) :=
      ⟨a, a', ha, rfl, h.order, rfl, rfl⟩
    exact ⟨_, _, hread', ⟨nextTag_record rfl hr, ha.tag, hbodies⟩, h.fileType, h.order, h.version,
      h.stamp, records, records', marked, hrecords, unread_skip hr, unread_skip hr'⟩

end Reader

/-! ### Data files -/

namespace Decoder

open Reader

theorem simulates_record : Simulates Grown
    (fun found found' => found'.1 = found.1 ∧ Bodies found.1 found.2 found'.2) record record := by
  intro r r' h found s hfound
  obtain ⟨found', s', hfound', ⟨-, htag, hbodies⟩, hs⟩ := h.follows_record found s hfound
  exact ⟨found', s', hfound', ⟨htag, hbodies⟩, hs⟩

theorem simulates_recordWithTag (tag : Tag) (expectation : Expectation) : Simulates Grown
    (Bodies tag) (recordWithTag tag expectation) (recordWithTag tag expectation) := by
  refine simulates_get.bind fun r r' _ => simulates_record.bind ?_
  rintro ⟨actual, body⟩ ⟨_, body'⟩ ⟨rfl, hbodies⟩
  dsimp only
  split
  · next h => exact simulates_pure (h ▸ hbodies)
  · exact simulates_throw _ _

variable {α : Type} {R : Reader → Reader → Prop} {tag : Tag} {body body' : Reader}

/-- A step that stops where its last field ends reads the longer body as the shorter one. -/
theorem simulates_within_bodies {p : Decoder α}
    (hp : ∀ extra, Simulates (Extends extra) Eq p p) (hbody : Bodies tag body body') :
    Simulates R Eq (within body p) (within body' p) := by
  obtain ⟨extra, hextends⟩ := hbody.extends
  exact simulates_within (hp extra) hextends

theorem simulates_dataUnit (previous : Option DataUnit) :
    Simulates Grown Eq (dataUnit previous) (dataUnit previous) := by
  refine simulates_get.bind fun r r' hr => ?_
  dsimp only
  rw [hr.isFinished_eq]
  split
  · exact simulates_pure rfl
  refine simulates_record.bind ?_
  rintro ⟨tag, body⟩ ⟨_, body'⟩ ⟨rfl, hbodies⟩
  dsimp only at hbodies ⊢
  split
  · refine (simulates_within_bodies (fun _ => simulates_functionKey) hbodies).bind_eq fun key => ?_
    refine (simulates_recordWithTag _ _).bind fun body body' hbodies => ?_
    obtain ⟨extra, hcounts⟩ := hbodies.counts
    exact (simulates_within simulates_counts hcounts).map_eq _
  split
  · exact (simulates_within_bodies (fun _ => simulates_summary) hbodies).map_eq _
  split
  · exact (simulates_within_bodies (fun _ => simulates_summary) hbodies).map_eq _
  · exact simulates_throw _ _

theorem simulates_dataFile : Simulates Grown Eq dataFile dataFile := by
  refine simulates_get.bind fun r r' hr => ?_
  dsimp only
  rw [hr.fileType, hr.version, hr.stamp]
  split
  · exact simulates_throw _ _
  · refine (Simulates.repeatWhile simulates_dataUnit none).bind_eq fun units => ?_
    split
    · exact simulates_get.bind fun _ _ _ => simulates_throw _ _
    · exact simulates_pure rfl

end Decoder

/-! ### Notes files -/

namespace NotesDecoder

open Reader

variable {tag : Tag}

/-- The next record has the tag that was looked at. -/
theorem follows_record {s t : NotesState} (hst : NotesState.Along Grown s t)
    (htag : s.reader.nextTag = some tag) : Follows (NotesState.Along Grown)
      (fun found found' => Bodies tag found.2 found'.2) (reading Decoder.record s)
      (reading Decoder.record t) := by
  refine follows_reading (fun found r hfound => ?_) hst.symbols
  obtain ⟨found', r', hfound', ⟨hfoundTag, -, hbodies⟩, hr⟩ :=
    hst.reader.follows_record found r hfound
  cases htag.symm.trans hfoundTag
  exact ⟨found', r', hfound', hbodies, hr⟩

theorem simulates_segment : Simulates (NotesState.Along Grown) Eq segment segment := by
  -- What a record may have behind its body depends on the tag that was looked at before it was
  -- read, so both are compared from the same two states.
  intro s t hst
  rw [segment, run_get_bind, run_get_bind, hst.reader.isFinished_eq, hst.reader.nextTag_eq]
  split
  · exact simulates_pure rfl s t hst
  cases htag : s.reader.nextTag with
  | none => exact simulates_reading (simulates_throw _ _) s t hst
  | some tag =>
    dsimp only
    split
    · exact simulates_pure rfl s t hst
    split
    · next harcs =>
      subst harcs
      refine (follows_record hst htag).bind fun found found' hbodies => ?_
      refine Simulates.map_eq (simulates_reading (Decoder.simulates_within simulates_arcs ?_)) _
      exact hbodies.extends_nil (by decide) (by decide)
    split
    · refine (follows_record hst htag).bind fun found found' hbodies => ?_
      obtain ⟨extra, hextends⟩ := hbodies.extends
      exact (simulates_within simulates_lines hextends).map_eq _
    · exact simulates_reading (simulates_throw _ _) s t hst

theorem simulates_functionGroup :
    Simulates (NotesState.Along Grown) Eq functionGroup functionGroup := by
  refine (simulates_reading (Decoder.simulates_recordWithTag _ _)).bind fun body body' hbodies => ?_
  obtain ⟨extra, hextends⟩ := hbodies.extends
  refine (simulates_within simulates_announcement hextends).bind_eq fun announcement => ?_
  refine (simulates_reading (Decoder.simulates_recordWithTag _ _)).bind fun body body' hbodies => ?_
  have hsame := hbodies.extends_nil (by decide) (by decide)
  refine (simulates_reading (Decoder.simulates_within simulates_blocks hsame)).bind_eq
    fun blocks => ?_
  exact (Simulates.repeatWhile (fun _ => simulates_segment) none).map_eq _

theorem simulates_nextFunction :
    Simulates (NotesState.Along Grown) Eq nextFunction nextFunction := by
  refine simulates_get.bind fun s t hst => ?_
  rw [hst.reader.isFinished_eq]
  split
  · exact simulates_pure rfl
  · exact simulates_functionGroup.map_eq _

theorem simulates_notesFile : Simulates (NotesState.Along Grown) Eq notesFile notesFile := by
  refine simulates_get.bind fun s t hst => ?_
  dsimp only
  rw [hst.reader.fileType, hst.reader.version, hst.reader.stamp]
  split
  · exact simulates_throw _ _
  · exact (Simulates.repeatWhile (fun _ => simulates_nextFunction) none).map_eq _

end NotesDecoder

/-! ### Files made of records -/

/-- The words of records. -/
def frames : Language UInt32 :=
  {ws | ∃ r : FramedRecord, r.Fits ∧ ws = r.words}

theorem records_le_frames (tag : Tag) (L : Language UInt32) : records tag L ≤ frames := by
  rintro _ ⟨body, -, hfits, rfl⟩
  exact ⟨⟨tag, body⟩, hfits, rfl⟩

/-- A function consists of records. -/
theorem NotesLanguage.function_le_frames (o : ByteOrder) : function o ≤ frames∗ := by
  have hsegment : segment o ≤ frames := sup_le (records_le_frames _ _) (records_le_frames _ _)
  calc function o
      ≤ frames∗ * frames∗ * frames∗ := mul_le_mul' (mul_le_mul'
        ((records_le_frames _ _).trans le_kstar) ((records_le_frames _ _).trans le_kstar))
        (kstar_mono hsegment)
    _ = frames∗ := by rw [kstar_mul_kstar, kstar_mul_kstar]

theorem NotesLanguage.file_le_frames (o : ByteOrder) : file o ≤ frames∗ :=
  (kstar_mono (function_le_frames o)).trans_eq (kstar_idem frames)

/-- A unit of a data file consists of records. -/
theorem FramedUnit.words_mem_frames {u : FramedUnit} (h : u.Complete) : u.words ∈ frames∗ := by
  match u, h with
  | function key counts, ⟨_, hkey, hcounts⟩ =>
    rw [← kstar_mul_kstar]
    exact Language.append_mem_mul (le_kstar (a := frames) ⟨⟨.function, key⟩, hkey, rfl⟩)
      (le_kstar (a := frames) ⟨⟨.arcCounts, counts⟩, hcounts, rfl⟩)
  | object body, ⟨_, hbody⟩ => exact le_kstar (a := frames) ⟨⟨.objectSummary, body⟩, hbody, rfl⟩
  | program body, ⟨_, hbody⟩ => exact le_kstar (a := frames) ⟨⟨.programSummary, body⟩, hbody, rfl⟩

theorem FramedUnit.flatMap_words_mem_frames {units : List FramedUnit}
    (h : ∀ u ∈ units, u.Complete) : units.flatMap words ∈ frames∗ := by
  rw [← kstar_idem, List.flatMap_def]
  exact Language.join_mem_kstar (List.forall_mem_map.2 fun u hu => words_mem_frames (h u hu))

theorem exists_records_of_mem_frames {ws : List UInt32} (h : ws ∈ frames∗) :
    ∃ records : List FramedRecord, (∀ r ∈ records, r.Fits) ∧
      ws = records.flatMap FramedRecord.words := by
  obtain ⟨us, rfl, hus⟩ := Language.mem_kstar.1 h
  choose! record hfits hwords using hus
  refine ⟨us.map record, List.forall_mem_map.2 hfits, ?_⟩
  rw [List.flatMap_map, List.flatten_eq_flatMap]
  exact List.flatMap_congr hwords

/-- A file consists of records if what is read of it does and the file ends there. -/
theorem Reader.exists_fileOf {bytes stray : List UInt8} {r : Reader} {x y : List UInt32}
    (h : ofBytes bytes = .ok r) (hr : Shows r.order stray x r) (hx : Heads frames∗ x y)
    (hend : EndsAt stray y) : ∃ o fileType version stamp records marked,
      (∀ record ∈ records, record.Fits) ∧
        bytes = Writer.fileOf o fileType version stamp records marked := by
  obtain ⟨ws, hws, marked, hunread⟩ := (exists_heads_endsAt_iff hr.short).1 ⟨y, hx, hend⟩
  obtain ⟨records, hfits, rfl⟩ := exists_records_of_mem_frames hws
  refine ⟨r.order, r.fileType, r.version, r.stamp, records, marked, hfits, ?_⟩
  rw [Writer.fileOf, Writer.framed, ← hunread, ← hr.unread]
  exact eq_header_append_unread h

/-- The readers of two files with the same header stand before their records. -/
theorem Reader.exists_grown (o : ByteOrder) (fileType : FileType) (version : Version)
    (stamp : UInt32) {records records' : List FramedRecord} (marked : Bool)
    (h : List.Forall₂ FramedRecord.GrowsTo records records') :
    ∃ r r', ofBytes (Writer.fileOf o fileType version stamp records marked) = .ok r ∧
      ofBytes (Writer.fileOf o fileType version stamp records' marked) = .ok r' ∧ Grown r r' :=
  ⟨_, _, ofBytes_header .., ofBytes_header .., rfl, rfl, rfl, rfl, records, records', marked, h,
    rfl, rfl⟩

/-! ### What a file is read as -/

/-- What the bytes of a file are read as, with the names that are pooled before and after. A data
file has no names to pool. -/
inductive Decoded (bytes : List UInt8) (symbols : SymbolTable) :
    NotesFile Symbol ⊕ DataFile → SymbolTable → Prop
  | notes {r : Reader} {file : NotesFile Symbol} {s : NotesState}
      (header : Reader.ofBytes bytes = .ok r)
      (records : NotesDecoder.notesFile ⟨r, symbols⟩ = .ok file s) :
      Decoded bytes symbols (.inl file) s.symbols
  | data {r r' : Reader} {file : DataFile} (header : Reader.ofBytes bytes = .ok r)
      (records : Decoder.dataFile r = .ok file r') : Decoded bytes symbols (.inr file) symbols

namespace Decoded

variable {bytes : List UInt8} {symbols symbols' : SymbolTable}
  {content : NotesFile Symbol ⊕ DataFile}

theorem exists_fileOf (h : Decoded bytes symbols content symbols') :
    ∃ o fileType version stamp records marked, (∀ record ∈ records, record.Fits) ∧
      bytes = Writer.fileOf o fileType version stamp records marked := by
  cases h with
  | @notes r file s header hrecords =>
    obtain ⟨x, stray, hshows⟩ := r.exists_shows
    have hrun := NotesDecoder.recognizes_notesFile (s := ⟨r, symbols⟩) hshows
      (NotesDecoder.fileType_eq_of_notesFile hrecords)
    obtain ⟨-, y, -, -, ⟨u, hu, rfl⟩, hend⟩ := hrun.sound file s hrecords
    exact Reader.exists_fileOf header hshows ⟨u, NotesLanguage.file_le_frames _ hu, rfl⟩ hend
  | @data r r' file header hrecords =>
    obtain ⟨x, stray, hshows⟩ := r.exists_shows
    have hrun := Decoder.recognizes_dataFile hshows (Decoder.fileType_eq_of_dataFile hrecords)
    obtain ⟨units, y, -, -, hunits, rfl, hend⟩ := hrun.sound file r' hrecords
    exact Reader.exists_fileOf header hshows
      ⟨_, FramedUnit.flatMap_words_mem_frames hunits.complete, rfl⟩ hend

/-- Every file that is read consists of records. If some of them have spare words, the file is read
as before and pools the same names. -/
theorem spareWords_skipped (h : Decoded bytes symbols content symbols') :
    (∃ o fileType version stamp records marked, (∀ record ∈ records, record.Fits) ∧
      bytes = Writer.fileOf o fileType version stamp records marked) ∧
    ∀ o fileType version stamp records records' marked,
      bytes = Writer.fileOf o fileType version stamp records marked →
      List.Forall₂ FramedRecord.GrowsTo records records' →
      Decoded (Writer.fileOf o fileType version stamp records' marked) symbols content
        symbols' := by
  refine ⟨h.exists_fileOf, ?_⟩
  rintro o fileType version stamp records records' marked rfl hgrows
  obtain ⟨r₁, r₂, h₁, h₂, hgrown⟩ :=
    Reader.exists_grown o fileType version stamp marked hgrows
  cases h with
  | notes header hrecords =>
    cases header.symm.trans h₁
    obtain ⟨_, s', hs', rfl, hs⟩ := NotesDecoder.simulates_notesFile ⟨r₁, symbols⟩ ⟨r₂, symbols⟩
      ⟨hgrown, rfl⟩ _ _ hrecords
    rw [← hs.symbols]
    exact .notes h₂ hs'
  | data header hrecords =>
    cases header.symm.trans h₁
    obtain ⟨_, r', hr', rfl, -⟩ := Decoder.simulates_dataFile r₁ r₂ hgrown _ _ hrecords
    exact .data h₂ hr'

/-! ### A sample -/

/-- The records of `Writer.sampleGroup` in a notes file. -/
def sampleNotes : List FramedRecord :=
  [⟨.function, [7, 9, 1, 0x66, 1, 0x632e61, 1]⟩, ⟨.blocks, [0, 0]⟩, ⟨.arcs, [0, 1, 4]⟩,
    ⟨.lines, [0, 0, 1, 0x632e61, 1, 2, 0, 0]⟩]

/-- Behind the announcement stands what looks like the beginning of another one, and behind the
lines what looks like another file with a line. -/
def sampleNotesGrown : List FramedRecord :=
  [⟨.function, [7, 9, 1, 0x66, 1, 0x632e61, 1, 0x01000000, 2]⟩, ⟨.blocks, [0, 0]⟩,
    ⟨.arcs, [0, 1, 4]⟩, ⟨.lines, [0, 0, 1, 0x632e61, 1, 2, 0, 0, 0, 1, 0x642e61, 3, 0, 0]⟩]

/-- The records of `Writer.sampleUnits` in a data file. -/
def sampleData : List FramedRecord :=
  [⟨.function, [7, 9]⟩, ⟨.arcCounts, [3, 0]⟩, ⟨.objectSummary, [0, 1, 1, 3, 0, 3, 0, 3, 0]⟩,
    ⟨.programSummary, [0, 1, 1, 3, 0, 3, 0, 3, 0]⟩]

/-- One word more in each record. -/
def sampleDataGrown : List FramedRecord :=
  [⟨.function, [7, 9, 0x01a10000]⟩, ⟨.arcCounts, [3, 0, 4]⟩,
    ⟨.objectSummary, [0, 1, 1, 3, 0, 3, 0, 3, 0, 0]⟩,
    ⟨.programSummary, [0, 1, 1, 3, 0, 3, 0, 3, 0, 0]⟩]

theorem growsTo_sampleNotes :
    List.Forall₂ FramedRecord.GrowsTo sampleNotes sampleNotesGrown :=
  .cons ⟨rfl, ⟨[0x01000000, 2], .inr (.inl (by decide)), rfl⟩, by decide⟩ <|
  .cons ⟨rfl, ⟨[], .inl rfl, rfl⟩, by decide⟩ <|
  .cons ⟨rfl, ⟨[], .inl rfl, rfl⟩, by decide⟩ <|
  .cons ⟨rfl, ⟨[0, 1, 0x642e61, 3, 0, 0], .inr (.inl (by decide)), rfl⟩, by decide⟩ .nil

theorem growsTo_sampleData : List.Forall₂ FramedRecord.GrowsTo sampleData sampleDataGrown :=
  .cons ⟨rfl, ⟨[0x01a10000], .inr (.inl (by decide)), rfl⟩, by decide⟩ <|
  .cons ⟨rfl, ⟨[4], .inr (.inr ⟨rfl, by decide, rfl⟩), rfl⟩, by decide⟩ <|
  .cons ⟨rfl, ⟨[0], .inr (.inl (by decide)), rfl⟩, by decide⟩ <|
  .cons ⟨rfl, ⟨[0], .inr (.inl (by decide)), rfl⟩, by decide⟩ .nil

theorem exists_decoded_sampleNotes : ∃ file symbols, file.mapFiles symbols.resolve? =
      NotesFile.mapFiles some ⟨⟨0⟩, 5, [Writer.sampleGroup.record]⟩ ∧
    Decoded (Writer.fileOf .little .notes ⟨0⟩ 5 sampleNotes false) .empty (.inl file) symbols := by
  have hgroups : ∀ g ∈ [Writer.sampleGroup], g.Writable .little := by decide
  have hbytes : Writer.framed .little sampleNotes false =
      [Writer.sampleGroup].flatMap (Writer.functionGroup .little) ++
        Writer.ending .little false := by decide
  obtain ⟨file, s, hfile, hnames⟩ := NotesDecoder.notesFile_eq_ok
    (s := ⟨⟨.notes, .little, ⟨0⟩, 5, 12, _⟩, .empty⟩) hgroups rfl rfl hbytes
  exact ⟨file, s.symbols, hnames, .notes (Reader.ofBytes_header ..) hfile⟩

theorem decoded_sampleData :
    Decoded (Writer.fileOf .little .data ⟨0⟩ 5 sampleData false) .empty
      (.inr (DataFile.ofUnits ⟨0⟩ 5 Writer.sampleUnits)) .empty := by
  have hunits : ∀ u ∈ Writer.sampleUnits, u.Writable .little := by decide
  have hbytes : Writer.framed .little sampleData false =
      Writer.sampleUnits.flatMap (Writer.dataUnit .little) ++
        Writer.ending .little false := by decide
  obtain ⟨r, hfile⟩ := Decoder.dataFile_eq_ok (r := ⟨.data, .little, ⟨0⟩, 5, 12, _⟩) hunits
    (by decide) ⟨⟨0, 1, 1, 3, 3, 3⟩, by decide⟩ rfl rfl hbytes
  exact .data (Reader.ofBytes_header ..) hfile

theorem spareWords_skipped_sample :
    (∃ file symbols, file.mapFiles symbols.resolve? =
        NotesFile.mapFiles some ⟨⟨0⟩, 5, [Writer.sampleGroup.record]⟩ ∧
      Decoded (Writer.fileOf .little .notes ⟨0⟩ 5 sampleNotes false) .empty (.inl file) symbols ∧
      Decoded (Writer.fileOf .little .notes ⟨0⟩ 5 sampleNotesGrown false) .empty (.inl file)
        symbols) ∧
    Decoded (Writer.fileOf .little .data ⟨0⟩ 5 sampleData false) .empty
      (.inr (DataFile.ofUnits ⟨0⟩ 5 Writer.sampleUnits)) .empty ∧
    Decoded (Writer.fileOf .little .data ⟨0⟩ 5 sampleDataGrown false) .empty
      (.inr (DataFile.ofUnits ⟨0⟩ 5 Writer.sampleUnits)) .empty := by
  obtain ⟨file, symbols, hnames, hnotes⟩ := exists_decoded_sampleNotes
  have hnotesGrown := (spareWords_skipped hnotes).2 _ _ _ _ _ _ _ rfl growsTo_sampleNotes
  have hdataGrown := (spareWords_skipped decoded_sampleData).2 _ _ _ _ _ _ _ rfl growsTo_sampleData
  exact ⟨⟨file, symbols, hnames, hnotes, hnotesGrown⟩, decoded_sampleData, hdataGrown⟩

end Decoded

end CoverageFlow
