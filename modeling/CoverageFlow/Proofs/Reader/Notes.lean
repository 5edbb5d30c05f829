import CoverageFlow.Proofs.Reader.Field
import CoverageFlow.Reader.Notes
import CoverageFlow.Writer.Notes

/-!
# Reading notes files back

The names of source files are pooled while a notes file is read, so what is read back is not what
was written, but the same records with symbols for these names. The symbols get their meaning from
the table of the names, which grows: a symbol that stands for a name once stands for it from then
on. What holds of a value that was read is therefore stated for all tables that the table grows to.

The records of arcs and lines of a function are not counted, so the reader looks ahead: they end
before the next announcement and at the end of the file. The entries of a record of lines end with
a zero and an absent name, which is why no line may have the number zero.

## Main definitions

* `Line.Writable`, `Segment.Writable`, `FunctionGroup.Writable`: what is read back.
* `SymbolTable.GrowsTo`: one table has the names of another one and possibly more.
* `NotesDecoder.Reads`: a step reads certain bytes as a value with a certain property.

## Main results

* `NotesDecoder.reads_repeatWhile`: a repeated step reads what is written for a list of values.
* `NotesDecoder.reads_functionGroup`: the records of a function are read back.
* `NotesDecoder.notesFile_eq_ok`: a notes file is read back.
-/

namespace CoverageFlow

/-! ### What can be written -/

/-- A name that can be written: it does not contain the character that ends it, and its length is a
word. -/
structure Writer.IsName (name : String) : Prop where
  ends : '\x00' ∉ name.toList
  length : Writer.stringWords name.toUTF8.data.toList < UInt32.size

instance (name : String) : Decidable (Writer.IsName name) :=
  decidable_of_iff ('\x00' ∉ name.toList ∧
      Writer.stringWords name.toUTF8.data.toList < UInt32.size)
    ⟨fun h => ⟨h.1, h.2⟩, fun h => ⟨h.ends, h.length⟩⟩

/-- An entry of a record of lines that can be written: its number is not the zero that announces a
file. -/
def Line.Writable : Line String → Prop
  | .number n => n ≠ 0
  | .file name => Writer.IsName name

instance : (l : Line String) → Decidable l.Writable
  | .number n => inferInstanceAs (Decidable (n ≠ 0))
  | .file name => inferInstanceAs (Decidable (Writer.IsName name))

/-- A segment that can be written. -/
structure Segment.Writable (o : ByteOrder) (s : Segment String) : Prop where
  body : Writer.Fits (Writer.segmentBody o s)
  lines : ∀ r ∈ s.lines?, ∀ l ∈ r.items, l.Writable

instance (o : ByteOrder) (s : Segment String) : Decidable (s.Writable o) :=
  decidable_of_iff (Writer.Fits (Writer.segmentBody o s) ∧
      ∀ r ∈ s.lines?, ∀ l ∈ r.items, l.Writable)
    ⟨fun h => ⟨h.1, h.2⟩, fun h => ⟨h.body, h.lines⟩⟩

/-- A function whose records can be written: every length is a word, and names and line numbers
are not mistaken for what ends them. -/
structure FunctionGroup.Writable (o : ByteOrder) (g : FunctionGroup String) : Prop where
  name : Writer.IsName g.announcement.name
  source : Writer.IsName g.announcement.source
  announcement : Writer.Fits (Writer.announcementBody o g.announcement)
  blocks : Writer.Fits (Writer.blocksBody o g.blocks)
  segments : ∀ s ∈ g.segments, s.Writable o

instance (o : ByteOrder) (g : FunctionGroup String) : Decidable (g.Writable o) :=
  decidable_of_iff (Writer.IsName g.announcement.name ∧ Writer.IsName g.announcement.source ∧
      Writer.Fits (Writer.announcementBody o g.announcement) ∧
      Writer.Fits (Writer.blocksBody o g.blocks) ∧ ∀ s ∈ g.segments, s.Writable o)
    ⟨fun ⟨h₁, h₂, h₃, h₄, h₅⟩ => ⟨h₁, h₂, h₃, h₄, h₅⟩,
      fun h => ⟨h.name, h.source, h.announcement, h.blocks, h.segments⟩⟩

/-! ### Growing tables -/

namespace SymbolTable

/-- Every symbol of a table keeps its name in another one. -/
def GrowsTo (t t' : SymbolTable) : Prop :=
  ∀ x name, t.resolve? x = some name → t'.resolve? x = some name

theorem GrowsTo.refl (t : SymbolTable) : t.GrowsTo t := fun _ _ h => h

theorem GrowsTo.trans {t t' t'' : SymbolTable} (h : t.GrowsTo t') (h' : t'.GrowsTo t'') :
    t.GrowsTo t'' := fun x name hx => h' x name (h x name hx)

theorem growsTo_intern (t : SymbolTable) (name : String) : t.GrowsTo (t.intern name).2 :=
  fun _ _ h => resolve?_intern_of_some h name

end SymbolTable

namespace NotesDecoder

variable {α β γ : Type} {o : ByteOrder} {bytes bytes₁ bytes₂ rest : List UInt8}
  {P : SymbolTable → α → Prop} {Q : SymbolTable → β → Prop}

/-! ### Steps that read what is written -/

/-- Where the given bytes come next and then the rest, a step reads the given bytes and nothing
else, and yields a value with a property that may depend on the pooled names. It pools names only
in addition, and the property stays when more names are pooled. -/
def Reads (o : ByteOrder) (p : NotesDecoder α) (bytes rest : List UInt8)
    (P : SymbolTable → α → Prop) : Prop :=
  ∀ s : NotesState, s.reader.order = o → s.reader.unread = bytes ++ rest →
    ∃ a t, p s = .ok a ⟨s.reader.skip bytes.length, t⟩ ∧ s.symbols.GrowsTo t ∧
      ∀ t', t.GrowsTo t' → P t' a

theorem reads_pure {a : α} (ha : ∀ t, P t a) : Reads o (pure a) [] rest P :=
  fun s _ _ => ⟨a, s.symbols, rfl, .refl _, fun t _ => ha t⟩

theorem Reads.mono {p : NotesDecoder α} {P' : SymbolTable → α → Prop} (hp : Reads o p bytes rest P)
    (hP : ∀ t a, P t a → P' t a) : Reads o p bytes rest P' := by
  intro s ho hs
  obtain ⟨a, t, hend, hgrows, ha⟩ := hp s ho hs
  exact ⟨a, t, hend, hgrows, fun t' ht' => hP t' a (ha t' ht')⟩

/-- What two steps read, one after the other, is read by both together. The second step may use
what holds of the value of the first. -/
theorem Reads.bind {p : NotesDecoder α} {f : α → NotesDecoder β}
    (hp : Reads o p bytes₁ (bytes₂ ++ rest) P)
    (hf : ∀ a, Reads o (f a) bytes₂ rest fun t b => P t a → Q t b) :
    Reads o (p >>= f) (bytes₁ ++ bytes₂) rest Q := by
  intro s ho hs
  rw [List.append_assoc] at hs
  obtain ⟨a, t, hfirst, hgrows, ha⟩ := hp s ho hs
  obtain ⟨b, t', hsecond, hgrows', hb⟩ :=
    hf a ⟨s.reader.skip bytes₁.length, t⟩ ho (Reader.unread_skip hs)
  refine ⟨b, t', ?_, hgrows.trans hgrows', fun t'' ht'' => ?_⟩
  · rw [run_bind, hfirst, List.length_append, ← Reader.skip_skip]
    exact hsecond
  · exact hb t'' ht'' (ha t'' (hgrows'.trans ht''))

/-- A step that pools no name is followed by one that may. -/
theorem Reads.bind_reading {p : Decoder α} {f : α → NotesDecoder β} {a : α}
    (hp : Decoder.Reads o p bytes₁ (bytes₂ ++ rest) a) (hf : Reads o (f a) bytes₂ rest Q) :
    Reads o (reading p >>= f) (bytes₁ ++ bytes₂) rest Q := by
  intro s ho hs
  rw [List.append_assoc] at hs
  obtain ⟨b, t, hsecond, hgrows, hb⟩ :=
    hf ⟨s.reader.skip bytes₁.length, s.symbols⟩ ho (Reader.unread_skip hs)
  refine ⟨b, t, ?_, hgrows, hb⟩
  rw [run_bind, reading, hp s.reader ho hs, List.length_append, ← Reader.skip_skip]
  exact hsecond

theorem Reads.map_reading {p : Decoder α} {a : α} (hp : Decoder.Reads o p bytes rest a) (f : α → β)
    (hf : ∀ t, Q t (f a)) : Reads o (reading p >>= fun a => pure (f a)) bytes rest Q := by
  rw [← List.append_nil bytes]
  exact Reads.bind_reading hp (reads_pure hf)

theorem Reads.map {p : NotesDecoder α} (hp : Reads o p bytes rest P) (f : α → β)
    (hf : ∀ t a, P t a → Q t (f a)) : Reads o (p >>= fun a => pure (f a)) bytes rest Q := by
  rw [← List.append_nil bytes]
  exact Reads.bind hp fun a => reads_pure fun t => hf t a

theorem reads_intern (name : String) :
    Reads o (intern name) [] rest fun t x => t.resolve? x = some name :=
  fun s _ _ => ⟨(s.symbols.intern name).1, (s.symbols.intern name).2, rfl,
    s.symbols.growsTo_intern name, fun _ ht => ht _ _ (s.symbols.resolve?_intern name)⟩

theorem reads_symbol {name : String} (hname : Writer.IsName name) (rest : List UInt8) :
    Reads o symbol (Writer.string o name) rest fun t x => t.resolve? x = some name := by
  rw [← List.append_nil (Writer.string o name)]
  exact Reads.bind_reading (Decoder.reads_string hname.ends hname.length _) (reads_intern name)

theorem reads_announcement {a : Announcement String} (hname : Writer.IsName a.name)
    (hsource : Writer.IsName a.source) (rest : List UInt8) :
    Reads o announcement (Writer.announcementBody o a) rest fun t a' =>
      a'.mapFiles t.resolve? = a.mapFiles some := by
  simp only [Writer.announcementBody, List.append_assoc]
  refine Reads.bind_reading (Decoder.reads_word _ _) ?_
  refine Reads.bind_reading (Decoder.reads_word _ _) ?_
  refine Reads.bind_reading (Decoder.reads_string hname.ends hname.length _) ?_
  refine Reads.bind (reads_symbol hsource _) fun source => ?_
  refine Reads.map_reading (Decoder.reads_word _ _) _ fun t hsource => ?_
  simp only [Announcement.mapFiles, hsource, Option.getD_some]

/-! ### Bodies -/

theorem reads_blocks (flags : List UInt32) :
    Decoder.Reads o blocks (Writer.blocksBody o flags) [] flags :=
  Decoder.reads_untilEmpty (fun w _ rest => Decoder.reads_word w rest) fun w hw =>
    absurd (Writer.length_word o w) (by rw [hw]; exact Nat.zero_ne_add_one 3)

theorem reads_arc (a : ArcRecord) (rest : List UInt8) :
    Decoder.Reads o arc (Writer.arc o a) rest a :=
  Decoder.Reads.bind (Decoder.reads_word _ _) (Decoder.Reads.map (Decoder.reads_word _ _) _)

theorem reads_arcs (r : ArcsRecord) :
    Decoder.Reads o arcs (Writer.segmentBody o (.arcs r)) [] r :=
  Decoder.Reads.bind (Decoder.reads_word _ _) <| Decoder.Reads.map
    (Decoder.reads_untilEmpty (fun a _ rest => reads_arc a rest) fun a ha => by
      have hlength : (Writer.arc o a).length = 8 := by
        rw [Writer.arc, List.length_append, Writer.length_word, Writer.length_word]
      rw [ha] at hlength
      cases hlength) _

/-- A zero and a name are the file of the lines that follow. -/
theorem reads_line_file {bytes : List UInt8} {name : String}
    (hname : Decoder.Reads o Decoder.string bytes rest (some name)) :
    Reads o line (Writer.word o 0 ++ bytes) rest fun t l =>
      l.map (Line.mapFiles t.resolve?) = some (.file (some name)) := by
  refine Reads.bind_reading (Decoder.reads_word _ _) ?_
  rw [if_neg (not_not_intro rfl), ← List.append_nil bytes]
  refine Reads.bind_reading hname ?_
  refine Reads.map (reads_intern name) _ fun t x hx => ?_
  rw [Option.map_some, Line.mapFiles, hx]

theorem reads_line {l : Line String} (hl : l.Writable) (rest : List UInt8) :
    Reads o line (Writer.line o l) rest fun t l' =>
      l'.map (Line.mapFiles t.resolve?) = some (l.mapFiles some) := by
  cases l with
  | number n =>
    have hn : n ≠ 0 := hl
    rw [Writer.line, ← List.append_nil (Writer.word o n)]
    refine Reads.bind_reading (Decoder.reads_word _ _) ?_
    rw [if_pos hn]
    exact reads_pure fun _ => rfl
  | file name => exact reads_line_file (Decoder.reads_string hl.ends hl.length _)

/-- A zero without a name ends the entries. -/
theorem reads_line_none (rest : List UInt8) :
    Reads o line (Writer.word o 0 ++ Writer.word o 0) rest fun _ l => l = none := by
  refine Reads.bind_reading (Decoder.reads_word _ _) ?_
  rw [if_neg (not_not_intro rfl), ← List.append_nil (Writer.word o 0)]
  exact Reads.bind_reading (Decoder.reads_string_absent _) (reads_pure fun _ => rfl)

/-! ### Repetition -/

/-- A repeated step reads what is written for some values, one after the other, and then what ends
them. It may depend on what follows a value, as long as what it needs holds in front of every value
and of the end. -/
theorem reads_repeatWhile {step : NotesDecoder (Option α)}
    {h : ∀ _ : Option α, Yields NotesState.remaining step} {write : β → List UInt8}
    {last : List UInt8} {xs : List β} (f : SymbolTable → α → γ) (g : β → γ) {B : List UInt8 → Prop}
    (hstep : ∀ x ∈ xs, ∀ rest, B rest →
      Reads o step (write x) rest fun t a => a.map (f t) = some (g x))
    (hwrite : ∀ x ∈ xs, ∀ rest, B (write x ++ rest)) (hlast : B (last ++ rest))
    (hend : Reads o step last rest fun _ a => a = none) (previous : Option α) :
    Reads o (repeatWhile NotesState.remaining (fun _ => step) h previous)
      (xs.flatMap write ++ last) rest fun t as => as.map (f t) = xs.map g := by
  intro s ho hs
  suffices hrepeats : ∃ as t, Repeats (fun _ => step) previous s as
      ⟨s.reader.skip (xs.flatMap write ++ last).length, t⟩ ∧ s.symbols.GrowsTo t ∧
      ∀ t', t.GrowsTo t' → as.map (f t') = xs.map g by
    obtain ⟨as, t, hrepeats, hgrows, has⟩ := hrepeats
    exact ⟨as, t, hrepeats.repeatWhile_eq, hgrows, has⟩
  induction xs generalizing s previous with
  | nil =>
    obtain ⟨a, t, hstop, hgrows, ha⟩ := hend s ho hs
    obtain rfl := ha t (.refl t)
    exact ⟨[], t, .stop hstop, hgrows, fun _ _ => rfl⟩
  | cons x xs ih =>
    obtain ⟨hx, hxs⟩ := List.forall_mem_cons.1 hstep
    obtain ⟨-, hwrite⟩ := List.forall_mem_cons.1 hwrite
    rw [List.flatMap_cons, List.append_assoc (write x), List.append_assoc (write x)] at hs
    have hB : B (xs.flatMap write ++ last ++ rest) := by
      cases xs with
      | nil => exact hlast
      | cons y ys =>
        rw [List.flatMap_cons, List.append_assoc (write y), List.append_assoc (write y)]
        exact hwrite y List.mem_cons_self _
    obtain ⟨a, t, hfirst, hgrows, ha⟩ := hx _ hB s ho hs
    obtain ⟨a, rfl, -⟩ := Option.map_eq_some_iff.1 (ha t (.refl t))
    obtain ⟨as, t', hrest, hgrows', has⟩ :=
      ih hxs hwrite (some a) ⟨s.reader.skip (write x).length, t⟩ ho (Reader.unread_skip hs)
    refine ⟨a :: as, t', .next hfirst ?_, hgrows.trans hgrows', fun t'' ht'' => ?_⟩
    · rw [List.flatMap_cons, List.append_assoc, List.length_append, ← Reader.skip_skip]
      exact hrest
    · rw [List.map_cons, List.map_cons, has t'' ht'']
      rw [Option.some.inj (ha t'' (hgrows'.trans ht''))]

/-- The entries of a record of lines are read one after the other, up to a zero without a name. -/
theorem Reads.lines (block : UInt32) {xs : List α} {write : α → List UInt8}
    (value : α → Line String) (hlines : ∀ x ∈ xs, ∀ rest, Reads o line (write x) rest fun t l =>
      l.map (Line.mapFiles t.resolve?) = some ((value x).mapFiles some)) (rest : List UInt8) :
    Reads o NotesDecoder.lines (Writer.word o block ++ (xs.flatMap write ++
        (Writer.word o 0 ++ Writer.word o 0))) rest
      fun t r => r.mapFiles t.resolve? = LinesRecord.mapFiles some ⟨⟨block⟩, xs.map value⟩ := by
  refine Reads.bind_reading (Decoder.reads_word _ _) ?_
  refine Reads.map (reads_repeatWhile (fun t => Line.mapFiles t.resolve?)
    (fun x => (value x).mapFiles some) (B := fun _ => True) (fun x hx rest _ => hlines x hx rest)
    (fun _ _ _ => trivial) trivial (reads_line_none _) none) _ fun t items hitems => ?_
  rw [LinesRecord.mapFiles, LinesRecord.mapFiles, hitems, List.map_map]
  rfl

theorem reads_lines {r : LinesRecord String} (hr : ∀ l ∈ r.items, l.Writable) :
    Reads o lines (Writer.segmentBody o (.lines r)) [] fun t r' =>
      r'.mapFiles t.resolve? = r.mapFiles some := by
  have hread := Reads.lines (o := o) r.block.val id (fun l hl => reads_line (hr l hl)) []
  rw [List.map_id, ← List.append_assoc, ← List.append_assoc] at hread
  exact hread

/-! ### Records -/

theorem dvd_length_announcementBody (a : Announcement String) :
    4 ∣ (Writer.announcementBody o a).length :=
  Writer.dvd_length_append (Writer.dvd_length_append (Writer.dvd_length_append
    (Writer.dvd_length_append (Writer.dvd_length_word o _) (Writer.dvd_length_word o _))
    (Writer.dvd_length_string o _)) (Writer.dvd_length_string o _)) (Writer.dvd_length_word o _)

theorem dvd_length_line (l : Line String) : 4 ∣ (Writer.line o l).length := by
  cases l with
  | number n => exact Writer.dvd_length_word o n
  | file name =>
    exact Writer.dvd_length_append (Writer.dvd_length_word o 0) (Writer.dvd_length_string o name)

theorem dvd_length_segmentBody (x : Segment String) : 4 ∣ (Writer.segmentBody o x).length := by
  cases x with
  | arcs r =>
    exact Writer.dvd_length_append (Writer.dvd_length_word o _) (Writer.dvd_length_flatMap
      (fun a => Writer.dvd_length_append (Writer.dvd_length_word o _) (Writer.dvd_length_word o _))
      r.arcs)
  | lines r =>
    exact Writer.dvd_length_append (Writer.dvd_length_append (Writer.dvd_length_append
      (Writer.dvd_length_word o _) (Writer.dvd_length_flatMap dvd_length_line r.items))
      (Writer.dvd_length_word o 0)) (Writer.dvd_length_word o 0)

/-- A step on the body of a record reads what it needs of it, whatever comes behind that, and the
reader of the file does not move. -/
theorem within_eq_ok {p : NotesDecoder α} {body skipped : List UInt8}
    (hp : Reads o p body skipped P) {r : Reader} (ho : r.order = o) (s : NotesState) :
    ∃ a t, within (Decoder.bodyReader r (body ++ skipped)) p s = .ok a { s with symbols := t } ∧
      s.symbols.GrowsTo t ∧ ∀ t', t.GrowsTo t' → P t' a := by
  obtain ⟨a, t, hstep, hgrows, ha⟩ :=
    hp ⟨Decoder.bodyReader r (body ++ skipped), s.symbols⟩ ho rfl
  refine ⟨a, t, ?_, hgrows, ha⟩
  rw [within, hstep]

/-- A record with the right tag is read through its body. -/
theorem reads_record {p : NotesDecoder α} {tag : Tag} {body skipped : List UInt8}
    (hp : Reads o p body skipped P) (hbody : Writer.Fits (body ++ skipped))
    (hwords : 4 ∣ (body ++ skipped).length) (expectation : Expectation) (rest : List UInt8) :
    Reads o (reading (Decoder.recordWithTag tag expectation) >>= fun body => within body p)
      (Writer.record o tag (body ++ skipped)) rest P := by
  intro s ho hs
  rw [run_bind, reading, Decoder.recordWithTag_eq_ok ho hs hbody hwords]
  exact within_eq_ok hp ho _

theorem reading_bind (p : Decoder α) (f : α → Decoder β) :
    reading (p >>= f) = reading p >>= fun a => reading (f a) := by
  funext s
  simp only [reading, run_bind]
  rcases p s.reader with ⟨a, r⟩ | ⟨e, r⟩ <;> rfl

theorem Reads.bind_record {p : Decoder α} {a : α} {tag : Tag} {body : List UInt8}
    {f : α → NotesDecoder β} (hp : Decoder.Reads o p body [] a) (hbody : Writer.Fits body)
    (hwords : 4 ∣ body.length) (expectation : Expectation) (hf : Reads o (f a) bytes rest Q) :
    Reads o (reading (Decoder.recordWithTag tag expectation) >>= fun body =>
      reading (Decoder.within body p) >>= f) (Writer.record o tag body ++ bytes) rest Q := by
  rw [← bind_assoc, ← reading_bind]
  exact Reads.bind_reading (Decoder.reads_record hp hbody hwords expectation _) hf

theorem reads_segment_arcs {r : ArcsRecord} (hbody : Writer.Fits (Writer.segmentBody o (.arcs r)))
    (rest : List UInt8) : Reads o segment (Writer.segment o (.arcs r)) rest fun _ a =>
      a = some (.arcs r) := by
  intro s ho hs
  have hrecord := Decoder.record_eq_ok ho hs hbody (dvd_length_segmentBody (.arcs r))
  have hfunction : Writer.segmentTag (.arcs r) ≠ .function := (by decide : Tag.arcs ≠ .function)
  have harcs : Writer.segmentTag (.arcs r) = .arcs := rfl
  rw [segment, run_get_bind, Reader.isFinished_record hs, Reader.nextTag_record ho hs]
  dsimp only
  rw [if_neg Bool.false_ne_true, if_neg hfunction, if_pos harcs]
  refine ⟨some (.arcs r), s.symbols, ?_, .refl _, fun _ _ => rfl⟩
  simp only [liftM, monadLift, MonadLift.monadLift, run_bind, reading, hrecord,
    Decoder.within_eq_ok (reads_arcs r) ho]
  rfl

theorem reads_segment_lines {r : LinesRecord String} {body skipped : List UInt8}
    (hp : Reads o lines body skipped fun t r' => r'.mapFiles t.resolve? = r.mapFiles some)
    (hbody : Writer.Fits (body ++ skipped)) (hwords : 4 ∣ (body ++ skipped).length)
    (rest : List UInt8) : Reads o segment (Writer.record o .lines (body ++ skipped)) rest fun t a =>
      a.map (Segment.mapFiles t.resolve?) = some (.lines (r.mapFiles some)) := by
  intro s ho hs
  have hrecord := Decoder.record_eq_ok ho hs hbody hwords
  rw [segment, run_get_bind, Reader.isFinished_record hs, Reader.nextTag_record ho hs]
  dsimp only
  rw [if_neg Bool.false_ne_true, if_neg (by decide), if_neg (by decide), if_pos rfl]
  obtain ⟨r', t, hend, hgrows, hr'⟩ := within_eq_ok hp ho
    ⟨s.reader.skip (Writer.record o .lines (body ++ skipped)).length, s.symbols⟩
  refine ⟨some (.lines r'), t, ?_, hgrows, fun t' ht' => ?_⟩
  · simp only [liftM, monadLift, MonadLift.monadLift, run_bind, reading, hrecord]
    rw [hend]
    rfl
  · rw [Option.map_some, Segment.mapFiles, hr' t' ht']

theorem reads_segment {x : Segment String} (hx : x.Writable o) (rest : List UInt8) :
    Reads o segment (Writer.segment o x) rest fun t a =>
      a.map (Segment.mapFiles t.resolve?) = some (x.mapFiles some) := by
  cases x with
  | arcs r =>
    exact (reads_segment_arcs hx.body rest).mono fun t a ha => by rw [ha]; rfl
  | lines r =>
    have hlines := reads_lines (o := o) (hx.lines r rfl)
    have hread := reads_segment_lines hlines (by rw [List.append_nil]; exact hx.body)
      (by rw [List.append_nil]; exact dvd_length_segmentBody _) rest
    rwa [List.append_nil] at hread

/-! ### Functions -/

/-- What may follow the last record of a function: the announcement of another one, or the end of
the file. -/
def EndsFunction (o : ByteOrder) (bytes : List UInt8) : Prop :=
  (∃ body rest, bytes = Writer.record o .function body ++ rest) ∨
    ∃ marked, bytes = Writer.ending o marked

theorem endsFunction_functionGroup (g : FunctionGroup String) (rest : List UInt8) :
    EndsFunction o (Writer.functionGroup o g ++ rest) := by
  rw [Writer.functionGroup, List.append_assoc, List.append_assoc]
  exact .inl ⟨_, _, rfl⟩

theorem reads_segment_none (h : EndsFunction o rest) :
    Reads o segment [] rest fun _ a => a = none := by
  intro s ho hs
  refine ⟨none, s.symbols, ?_, .refl _, fun _ _ => rfl⟩
  rw [segment, run_get_bind]
  rcases h with ⟨body, rest, rfl⟩ | ⟨marked, rfl⟩
  · rw [Reader.isFinished_record hs, Reader.nextTag_record ho hs]
    rfl
  · rw [Reader.isFinished_ending ho hs]
    rfl

/-- The records of a function are read one after the other: the announcement, the blocks, and the
segments up to its end. -/
theorem Reads.functionGroup {a : Announcement String} {body skipped : List UInt8}
    (ha : Reads o announcement body skipped fun t a' =>
      a'.mapFiles t.resolve? = a.mapFiles some)
    (hbody : Writer.Fits (body ++ skipped)) (hwords : 4 ∣ (body ++ skipped).length)
    {blocks : List UInt32} (hblocks : Writer.Fits (Writer.blocksBody o blocks)) {xs : List α}
    {write : α → List UInt8} (value : α → Segment String)
    (hsegments : ∀ x ∈ xs, ∀ rest, Reads o segment (write x) rest fun t s =>
      s.map (Segment.mapFiles t.resolve?) = some ((value x).mapFiles some))
    (hrest : EndsFunction o rest) :
    Reads o NotesDecoder.functionGroup (Writer.record o .function (body ++ skipped) ++
        (Writer.record o .blocks (Writer.blocksBody o blocks) ++ xs.flatMap write)) rest
      fun t g => g.mapFiles t.resolve? = FunctionGroup.mapFiles some ⟨a, blocks, xs.map value⟩ := by
  rw [NotesDecoder.functionGroup, ← bind_assoc]
  refine Reads.bind (reads_record ha hbody hwords _ _) fun a' => ?_
  refine Reads.bind_record (reads_blocks blocks) hblocks
    (Writer.dvd_length_flatMap (Writer.dvd_length_word o) _) _ ?_
  rw [← List.append_nil (xs.flatMap _)]
  refine Reads.map (reads_repeatWhile (fun t => Segment.mapFiles t.resolve?)
    (fun x => (value x).mapFiles some) (B := fun _ => True)
    (fun x hx rest _ => hsegments x hx rest) (fun _ _ _ => trivial) trivial
    (reads_segment_none hrest) none) _ fun t segments hread ha' => ?_
  rw [FunctionGroup.mapFiles, FunctionGroup.mapFiles, hread, ha', List.map_map]
  rfl

theorem reads_functionGroup {g : FunctionGroup String} (hg : g.Writable o)
    (hrest : EndsFunction o rest) :
    Reads o functionGroup (Writer.functionGroup o g) rest fun t g' =>
      g'.mapFiles t.resolve? = g.mapFiles some := by
  have hread := Reads.functionGroup (reads_announcement hg.name hg.source [])
    (by rw [List.append_nil]; exact hg.announcement)
    (by rw [List.append_nil]; exact dvd_length_announcementBody _) hg.blocks id
    (fun x hx => reads_segment (hg.segments x hx)) hrest
  rwa [List.append_nil, List.map_id, ← List.append_assoc] at hread

theorem reads_nextFunction {g : FunctionGroup String} (hg : g.Writable o)
    (hrest : EndsFunction o rest) :
    Reads o nextFunction (Writer.functionGroup o g) rest fun t g' =>
      g'.map (FunctionGroup.mapFiles t.resolve?) = some (g.mapFiles some) := by
  intro s ho hs
  have hfinished : s.reader.isFinished = false := by
    rw [Writer.functionGroup, List.append_assoc, List.append_assoc] at hs
    exact Reader.isFinished_record hs
  rw [nextFunction, run_get_bind, hfinished]
  exact Reads.map (reads_functionGroup hg hrest) some
    (fun t g' hg' => by rw [Option.map_some, hg']) s ho hs

theorem reads_nextFunction_none (marked : Bool) :
    Reads o nextFunction [] (Writer.ending o marked) fun _ g => g = none := by
  intro s ho hs
  refine ⟨none, s.symbols, ?_, .refl _, fun _ _ => rfl⟩
  rw [nextFunction, run_get_bind, Reader.isFinished_ending ho hs]
  rfl

/-- What the functions of a notes file are read as, the file is read as. -/
theorem notesFile_of_reads (groups : List (FunctionGroup String))
    (hread : Reads o (repeatWhile NotesState.remaining (fun _ => nextFunction)
      (fun _ => yields_nextFunction) none) bytes rest fun t gs =>
        gs.map (FunctionGroup.mapFiles t.resolve?) = groups.map (FunctionGroup.mapFiles some))
    {s : NotesState} (htype : s.reader.fileType = .notes) (ho : s.reader.order = o)
    (hs : s.reader.unread = bytes ++ rest) :
    ∃ file s', notesFile s = .ok file s' ∧ file.mapFiles s'.symbols.resolve? =
      NotesFile.mapFiles some
        ⟨s.reader.version, s.reader.stamp, groups.map FunctionGroup.record⟩ := by
  obtain ⟨gs, t, hrun, -, hgs⟩ := hread s ho hs
  have hfile : notesFile s = .ok ⟨s.reader.version, s.reader.stamp, gs.map FunctionGroup.record⟩
      ⟨s.reader.skip bytes.length, t⟩ := by
    rw [notesFile, run_get_bind, htype, if_neg (not_not_intro rfl)]
    refine (run_bind _ _ s).trans ?_
    rw [hrun]
    rfl
  refine ⟨_, _, hfile, ?_⟩
  have hrecords := congrArg (List.map FunctionGroup.record) (hgs t (.refl t))
  simp only [List.map_map, Function.comp_def, FunctionGroup.record_mapFiles] at hrecords
  simp only [NotesFile.mapFiles, List.map_map, Function.comp_def, hrecords]

/-- The functions of a notes file are read back, with symbols for the names of source files. -/
theorem notesFile_eq_ok {groups : List (FunctionGroup String)}
    (hgroups : ∀ g ∈ groups, g.Writable o) {marked : Bool} {s : NotesState}
    (htype : s.reader.fileType = .notes) (ho : s.reader.order = o)
    (hs : s.reader.unread = groups.flatMap (Writer.functionGroup o) ++ Writer.ending o marked) :
    ∃ file s', notesFile s = .ok file s' ∧ file.mapFiles s'.symbols.resolve? =
      NotesFile.mapFiles some
        ⟨s.reader.version, s.reader.stamp, groups.map FunctionGroup.record⟩ := by
  rw [← List.append_nil (groups.flatMap _)] at hs
  refine notesFile_of_reads groups (reads_repeatWhile
    (fun t => FunctionGroup.mapFiles t.resolve?) (FunctionGroup.mapFiles some) (B := EndsFunction o)
    (fun g hg rest hrest => ?_)
    (fun g _ rest => endsFunction_functionGroup g rest) (.inr ⟨marked, rfl⟩)
    (reads_nextFunction_none marked) none) htype ho hs
  exact reads_nextFunction (hgroups g hg) hrest

end NotesDecoder

end CoverageFlow
