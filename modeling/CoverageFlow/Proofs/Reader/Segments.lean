import CoverageFlow.Proofs.Reader.Notes
import CoverageFlow.Proofs.Reader.NotesLanguage

/-!
# Functions wherever they stand

The words of a function mean the same wherever they stand in a notes file. They are the records of
one function, with names in place of symbols, and whatever functions come before or after, and
whatever names were pooled before, that is what they are read as. Words that a body has too many do
not count.

So the functions of a notes file are those of its parts, one after the other.

## Main definitions

* `NotesDecoder.Means`: the words of a function are the records of a group.
* `Writer.notesOf`: a notes file made of the words of its functions.

## Main results

* `NotesDecoder.exists_means`: the words of every function mean something.
* `NotesDecoder.notesFile_of_means`: what a notes file is read as, part by part.
* `NotesDecoder.exists_notesOf`: every notes file that is read consists of functions.
-/

open scoped Computability

namespace CoverageFlow

/-! ### Words and bytes -/

namespace Writer

variable {o : ByteOrder}

theorem words_recordWords (tag : Tag) (body : List UInt32) :
    words o (recordWords tag body) = record o tag (words o body) := by
  rw [recordWords, words_cons, words_cons, record, length_words, Nat.mul_div_cancel_left _ four_pos,
    List.append_assoc]

theorem words_flatten (us : List (List UInt32)) : words o us.flatten = us.flatMap (words o) := by
  induction us with
  | nil => rfl
  | cons u us ih => rw [List.flatten_cons, words_append, ih, List.flatMap_cons]

theorem dvd_length_words (ws : List UInt32) : 4 ∣ (words o ws).length :=
  ⟨ws.length, length_words o ws⟩

theorem fits_words {ws : List UInt32} (h : ws.length < UInt32.size) : Fits (words o ws) := by
  rwa [Fits, length_words, Nat.mul_div_cancel_left _ four_pos]

/-- The bytes of a notes file whose functions have the given words. -/
def notesOf (o : ByteOrder) (version : Version) (stamp : UInt32) (fs : List (List UInt32))
    (marked : Bool) : List UInt8 :=
  header o .notes version stamp ++ (words o fs.flatten ++ ending o marked)

end Writer

/-! ### Names -/

variable {o : ByteOrder}

/-- The words of a name are read as that name, however it is filled up. -/
theorem Decoder.reads_nameWords {name : Option String} {ws : List UInt32}
    (h : ws ∈ nameWords o name) (rest : List UInt8) :
    Reads o string (Writer.words o ws) rest name := by
  cases name with
  | none =>
    obtain rfl : ws = [0] := h
    rw [Writer.words_singleton]
    exact reads_string_absent rest
  | some s =>
    obtain ⟨n, chunk, rfl, hn, hlength, hs⟩ := h
    have htake : 4 * n.toNat = (Writer.words o chunk).length := by
      rw [Writer.length_words, hlength]
    rw [Writer.words_cons]
    refine Reads.bind (reads_word n _) fun r ho hr => ?_
    rw [if_neg hn, run_get_bind, run_bind, htake, reads_take _ _ r ho hr]
    simp only [← hs, Utf8.decode_toUTF8]
    rfl

namespace NotesDecoder

open NotesLanguage

/-- An absent name stands for the unknown one. -/
theorem reads_symbol_nameWords {name : Option String} {ws : List UInt32}
    (h : ws ∈ nameWords o name) (rest : List UInt8) :
    Reads o symbol (Writer.words o ws) rest fun t x =>
      t.resolve? x = some (name.getD unknownName) := by
  rw [← List.append_nil (Writer.words o ws)]
  refine Reads.bind_reading (Decoder.reads_nameWords h _) ?_
  cases name with
  | none => exact reads_pure fun t => t.resolve?_unknown
  | some s => exact reads_intern s

/-! ### Bodies -/

theorem eq_singleton_of_mem_word {ws : List UInt32} (h : ws ∈ word) : ∃ w, ws = [w] :=
  List.length_eq_one_iff.1 h

theorem exists_reads_announcement {ws : List UInt32}
    (h : ws ∈ word * word * name o * name o * word) : ∃ a : Announcement String, ∀ rest,
      Reads o announcement (Writer.words o ws) rest fun t a' =>
        a'.mapFiles t.resolve? = a.mapFiles some := by
  simp only [Language.mem_mul] at h
  obtain ⟨_, ⟨_, ⟨_, ⟨_, hident, _, hchecksum, rfl⟩, us, ⟨s, hs⟩, rfl⟩, vs, ⟨source, hsource⟩, rfl⟩,
    _, hline, rfl⟩ := h
  obtain ⟨ident, rfl⟩ := eq_singleton_of_mem_word hident
  obtain ⟨checksum, rfl⟩ := eq_singleton_of_mem_word hchecksum
  obtain ⟨line, rfl⟩ := eq_singleton_of_mem_word hline
  refine ⟨⟨⟨ident⟩, checksum, s.getD "", source.getD unknownName, line⟩, fun rest => ?_⟩
  simp only [Writer.words_append, Writer.words_singleton, List.append_assoc]
  refine Reads.bind_reading (Decoder.reads_word _ _) ?_
  refine Reads.bind_reading (Decoder.reads_word _ _) ?_
  refine Reads.bind_reading (Decoder.reads_nameWords hs _) ?_
  refine Reads.bind (reads_symbol_nameWords hsource _) fun x => ?_
  refine Reads.map_reading (Decoder.reads_word _ _) _ fun t hx => ?_
  simp only [Announcement.mapFiles, hx]

/-- Words in even number are arcs. -/
theorem exists_arcs {ws : List UInt32} (h : Even ws.length) :
    ∃ as : List ArcRecord, Writer.words o ws = as.flatMap (Writer.arc o) := by
  match ws with
  | [] => exact ⟨[], rfl⟩
  | [w] => cases Nat.not_even_one h
  | u :: v :: ws =>
    obtain ⟨as, has⟩ := exists_arcs ((Nat.even_add (n := 2)).1 h |>.2 even_two)
    refine ⟨⟨⟨u⟩, v⟩ :: as, ?_⟩
    rw [Writer.words_cons, Writer.words_cons, has, List.flatMap_cons, Writer.arc,
      List.append_assoc]

/-- Words in odd number are a source and arcs. -/
theorem exists_arcsRecord {ws : List UInt32} (h : ws ∈ NotesLanguage.arcs) :
    ∃ r : ArcsRecord, Writer.words o ws = Writer.segmentBody o (.arcs r) := by
  match ws with
  | [] => cases Nat.not_odd_zero h
  | w :: ws =>
    obtain ⟨as, has⟩ := exists_arcs (Nat.not_odd_iff_even.1 (Nat.odd_add_one.1 h))
    exact ⟨⟨⟨w⟩, as⟩, by rw [Writer.words_cons, has]; rfl⟩

theorem exists_reads_line {ws : List UInt32} (h : ws ∈ entry o) : ∃ l : Line String, ∀ rest,
    Reads o line (Writer.words o ws) rest fun t l' =>
      l'.map (Line.mapFiles t.resolve?) = some (l.mapFiles some) := by
  obtain ⟨n, hn, rfl⟩ | hfile := (Language.mem_add ..).1 h
  · refine ⟨.number n, fun rest => ?_⟩
    rw [Writer.words_singleton]
    exact reads_line (l := .number n) hn rest
  · obtain ⟨_, rfl, us, ⟨s, hs⟩, rfl⟩ := Language.mem_mul.1 hfile
    refine ⟨.file s, fun rest => ?_⟩
    rw [Writer.words_append, Writer.words_singleton]
    exact reads_line_file (Decoder.reads_nameWords hs _)

theorem exists_reads_lines {ws : List UInt32} (h : ws ∈ word * (entry o)∗ * {[0, 0]}) :
    ∃ r : LinesRecord String, ∀ rest, Reads o lines (Writer.words o ws) rest fun t r' =>
      r'.mapFiles t.resolve? = r.mapFiles some := by
  obtain ⟨_, hfirst, _, rfl, rfl⟩ := Language.mem_mul.1 h
  obtain ⟨_, hblock, _, hentries, rfl⟩ := Language.mem_mul.1 hfirst
  obtain ⟨block, rfl⟩ := eq_singleton_of_mem_word hblock
  obtain ⟨us, rfl, hus⟩ := Language.mem_kstar.1 hentries
  choose! l hl using fun u hu => exists_reads_line (hus u hu)
  refine ⟨⟨⟨block⟩, us.map l⟩, fun rest => ?_⟩
  have hwords : Writer.words o ([block] ++ us.flatten ++ [0, 0]) =
      Writer.word o block ++
        (us.flatMap (Writer.words o) ++ (Writer.word o 0 ++ Writer.word o 0)) := by
    rw [Writer.words_append, Writer.words_append, Writer.words_singleton, Writer.words_flatten,
      Writer.words_cons, Writer.words_singleton, List.append_assoc]
  rw [hwords]
  exact Reads.lines block l hl rest

/-! ### Records -/

theorem exists_reads_segment {ws : List UInt32} (h : ws ∈ NotesLanguage.segment o) :
    ∃ x : Segment String, ∀ rest, Reads o segment (Writer.words o ws) rest fun t a =>
      a.map (Segment.mapFiles t.resolve?) = some (x.mapFiles some) := by
  obtain ⟨body, hbody, hlength, rfl⟩ | ⟨body, hbody, hlength, rfl⟩ := (Language.mem_add ..).1 h
  · obtain ⟨r, hr⟩ := exists_arcsRecord (o := o) hbody
    refine ⟨.arcs r, fun rest => ?_⟩
    rw [Writer.words_recordWords, hr]
    refine (reads_segment_arcs (hr ▸ Writer.fits_words hlength) rest).mono fun t a ha => ?_
    rw [ha]
    rfl
  · obtain ⟨used, hused, skipped, -, rfl⟩ := Language.mem_mul.1 hbody
    obtain ⟨r, hr⟩ := exists_reads_lines hused
    refine ⟨.lines r, fun rest => ?_⟩
    have hfits := Writer.fits_words (o := o) hlength
    have hdvd := Writer.dvd_length_words (o := o) (used ++ skipped)
    rw [Writer.words_append] at hfits hdvd
    rw [Writer.words_recordWords, Writer.words_append]
    exact reads_segment_lines (hr _) hfits hdvd rest

/-- Words are the records of a function: wherever they stand, if the function ends behind them,
they are read as the records of the group, with symbols for its names. -/
def Means (o : ByteOrder) (ws : List UInt32) (g : FunctionGroup String) : Prop :=
  ∀ rest, EndsFunction o rest → Reads o functionGroup (Writer.words o ws) rest fun t g' =>
    g'.mapFiles t.resolve? = g.mapFiles some

/-- The words of every function mean something. -/
theorem exists_means {ws : List UInt32} (h : ws ∈ NotesLanguage.function o) :
    ∃ g, Means o ws g := by
  obtain ⟨_, hrecords, _, hsegments, rfl⟩ := Language.mem_mul.1 h
  obtain ⟨_, ⟨head, hhead, hheadLength, rfl⟩, _, ⟨blocks, -, hblocksLength, rfl⟩, rfl⟩ :=
    Language.mem_mul.1 hrecords
  obtain ⟨used, hused, skipped, -, rfl⟩ := Language.mem_mul.1 hhead
  obtain ⟨us, rfl, hus⟩ := Language.mem_kstar.1 hsegments
  obtain ⟨a, ha⟩ := exists_reads_announcement hused
  choose! x hx using fun u hu => exists_reads_segment (hus u hu)
  refine ⟨⟨a, blocks, us.map x⟩, fun rest hrest => ?_⟩
  have hfits := Writer.fits_words (o := o) hheadLength
  have hdvd := Writer.dvd_length_words (o := o) (used ++ skipped)
  rw [Writer.words_append] at hfits hdvd
  rw [Writer.words_append, Writer.words_append, Writer.words_recordWords, Writer.words_append,
    Writer.words_recordWords, Writer.words_flatten, List.append_assoc]
  exact Reads.functionGroup (ha _) hfits hdvd (Writer.fits_words hblocksLength) x hx hrest

/-! ### Files -/

/-- A function begins with its announcement. -/
theorem exists_announcement {ws : List UInt32} (h : ws ∈ NotesLanguage.function o) :
    ∃ body rest, Writer.words o ws = Writer.record o .function body ++ rest := by
  obtain ⟨_, hrecords, us, -, rfl⟩ := Language.mem_mul.1 h
  obtain ⟨_, ⟨head, -, -, rfl⟩, blocks, -, rfl⟩ := Language.mem_mul.1 hrecords
  refine ⟨Writer.words o head, Writer.words o (blocks ++ us), ?_⟩
  simp only [Writer.words_append, Writer.words_recordWords, List.append_assoc]

theorem endsFunction_words {ws : List UInt32} (h : ws ∈ NotesLanguage.function o)
    (rest : List UInt8) : EndsFunction o (Writer.words o ws ++ rest) := by
  obtain ⟨body, rest', hws⟩ := exists_announcement h
  exact .inl ⟨body, rest' ++ rest, by rw [hws, List.append_assoc]⟩

theorem reads_nextFunction_words {ws : List UInt32} {g : FunctionGroup String}
    {rest : List UInt8} (h : ws ∈ NotesLanguage.function o) (hg : Means o ws g)
    (hrest : EndsFunction o rest) : Reads o nextFunction (Writer.words o ws) rest fun t g' =>
      g'.map (FunctionGroup.mapFiles t.resolve?) = some (g.mapFiles some) := by
  intro s ho hs
  have hfinished : s.reader.isFinished = false := by
    obtain ⟨body, rest', hws⟩ := exists_announcement h
    rw [hws, List.append_assoc] at hs
    exact Reader.isFinished_record hs
  rw [nextFunction, run_get_bind, hfinished]
  exact Reads.map (hg rest hrest) some (fun t g' hg' => by rw [Option.map_some, hg']) s ho hs

/-- A notes file is read as what its functions mean, in their order. -/
theorem notesFile_of_means {fs : List (List UInt32)} {meaning : List UInt32 → FunctionGroup String}
    (hfs : ∀ ws ∈ fs, ws ∈ NotesLanguage.function o) (hmeaning : ∀ ws ∈ fs, Means o ws (meaning ws))
    {marked : Bool} {s : NotesState} (htype : s.reader.fileType = .notes)
    (ho : s.reader.order = o)
    (hs : s.reader.unread = Writer.words o fs.flatten ++ Writer.ending o marked) :
    ∃ file s', notesFile s = .ok file s' ∧ file.mapFiles s'.symbols.resolve? =
      NotesFile.mapFiles some ⟨s.reader.version, s.reader.stamp,
        (fs.map meaning).map FunctionGroup.record⟩ := by
  rw [Writer.words_flatten, ← List.append_nil (fs.flatMap _)] at hs
  refine notesFile_of_reads (fs.map meaning) ?_ htype ho hs
  rw [List.map_map]
  refine reads_repeatWhile (fun t => FunctionGroup.mapFiles t.resolve?)
    (fun ws => (meaning ws).mapFiles some) (B := EndsFunction o) (fun ws hws rest hrest => ?_)
    (fun ws hws rest => endsFunction_words (hfs ws hws) rest) (.inr ⟨marked, rfl⟩)
    (reads_nextFunction_none marked) none
  exact reads_nextFunction_words (hfs ws hws) (hmeaning ws hws) hrest

theorem fileType_eq_of_notesFile {file : NotesFile Symbol} {s s' : NotesState}
    (h : notesFile s = .ok file s') : s.reader.fileType = .notes := by
  by_contra hne
  rw [notesFile, run_get_bind, if_pos hne] at h
  cases h

/-- A notes file that is read consists of functions. -/
theorem exists_notesOf {bytes : List UInt8} {r : Reader} {symbols : SymbolTable}
    {file : NotesFile Symbol} {s : NotesState} (h : Reader.ofBytes bytes = .ok r)
    (hfile : notesFile ⟨r, symbols⟩ = .ok file s) : ∃ fs marked,
      (∀ ws ∈ fs, ws ∈ NotesLanguage.function r.order) ∧
        bytes = Writer.notesOf r.order r.version r.stamp fs marked := by
  have htype : r.fileType = .notes := fileType_eq_of_notesFile hfile
  obtain ⟨x, stray, hr⟩ := r.exists_shows
  have hrun := recognizes_notesFile (s := ⟨r, symbols⟩) hr htype
  obtain ⟨-, y, hy⟩ := hrun.exists_ok_iff.1 ⟨file, s, hfile⟩
  obtain ⟨_, hws, marked, hrest⟩ := (Reader.exists_heads_endsAt_iff hr.short).1 ⟨y, hy⟩
  obtain ⟨fs, rfl, hfs⟩ := Language.mem_kstar.1 hws
  refine ⟨fs, marked, hfs, ?_⟩
  rw [Writer.notesOf, ← hrest, ← hr.unread, ← htype]
  exact Reader.eq_header_append_unread h

end NotesDecoder

end CoverageFlow
