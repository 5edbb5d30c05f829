import CoverageFlow.Proofs.Reader.Notes

/-!
# What reading a notes file ensures

Whatever the bytes of a notes file are, every symbol that a record holds once the file is read
belongs to the table of the pooled names. A step may hold a symbol that an earlier step pooled, so
what a step ensures is stated for all tables that the table grows to, as it is for steps that read
what was written.

The number of blocks of a function is bounded because the length of a record is a word.

## Main definitions

* `SymbolTable.Knows`: a symbol belongs to a table.
* `FunctionRecord.Mentions`: the files of a function and of its lines.
* `FunctionRecord.Pooled`: the bound of the blocks, and the known files.
* `NotesDecoder.Ensures`: what holds of the value of a step whenever it succeeds.

## Main results

* `NotesDecoder.Ensures.bind`, `NotesDecoder.Ensures.repeatWhile`: steps that are put together.
* `NotesDecoder.pooled_of_notesFile`: what holds of the functions of a notes file.
-/

namespace CoverageFlow

/-! ### Known symbols -/

namespace SymbolTable

variable {t t' : SymbolTable} {x : Symbol}

/-- A symbol belongs to a table. -/
def Knows (t : SymbolTable) (x : Symbol) : Prop :=
  ∃ name, t.resolve? x = some name

theorem knows_unknown (t : SymbolTable) : t.Knows .unknown :=
  ⟨unknownName, t.resolve?_unknown⟩

theorem knows_intern (t : SymbolTable) (name : String) :
    (t.intern name).2.Knows (t.intern name).1 :=
  ⟨name, t.resolve?_intern name⟩

theorem Knows.of_growsTo (h : t.Knows x) (ht : t.GrowsTo t') : t'.Knows x :=
  h.imp fun name => ht x name

/-- What a known symbol stands for does not depend on the names that are pooled later. -/
theorem Knows.name_eq (h : t.Knows x) (ht : t.GrowsTo t') : t'.name x = t.name x := by
  obtain ⟨name, hname⟩ := h
  rw [SymbolTable.name, SymbolTable.name, hname, ht x name hname]

end SymbolTable

/-- A file that declares a function or has lines of it. -/
def FunctionRecord.Mentions {φ : Type} (record : FunctionRecord φ) (file : φ) : Prop :=
  file = record.source ∨ ∃ r ∈ record.lines, .file file ∈ r.items

/-- What reading ensures of the records of a function: their number of blocks is a word, and the
table knows the files that they mention. -/
structure FunctionRecord.Pooled (record : FunctionRecord Symbol) (t : SymbolTable) : Prop where
  blocks : record.blocks.length < UInt32.size
  knows : ∀ x, record.Mentions x → t.Knows x

/-! ### The length of a record -/

/-- A step that takes `k` of the size of the state whenever it yields a value cannot be repeated
more often than the size allows. -/
theorem Repeats.length_le {ε σ α : Type} {size : σ → Nat} {k : Nat}
    {step : Option α → EStateM ε σ (Option α)}
    (hstep : ∀ previous s a s', step previous s = .ok (some a) s' → size s' + k ≤ size s)
    {previous : Option α} {s s' : σ} {as : List α} (h : Repeats step previous s as s') :
    k * as.length ≤ size s := by
  induction h with
  | stop last => exact Nat.zero_le _
  | next first _ ih =>
    have := hstep _ _ _ _ first
    rw [List.length_cons, Nat.mul_succ]
    omega

namespace Decoder

theorem length_take {count : Nat} {bytes : List UInt8} {r r' : Reader}
    (h : take count r = .ok bytes r') : bytes.length = count := by
  obtain ⟨_, -, hlength, -⟩ := take_eq_ok h
  exact hlength

/-- A reader moves by what is left at most. -/
theorem remaining_take {count : Nat} {bytes : List UInt8} {r r' : Reader}
    (h : take count r = .ok bytes r') : r'.remaining + count = r.remaining := by
  obtain ⟨rest, hr, rfl, rfl⟩ := take_eq_ok h
  rw [Reader.remaining, Reader.remaining, hr, List.length_append, Nat.add_comm]

/-- The length of a record is a word. -/
theorem remaining_record {found : Tag × Reader} {r r' : Reader} (h : record r = .ok found r') :
    found.2.remaining < 4 * UInt32.size := by
  obtain ⟨tag, r₁, -, h⟩ := bind_eq_ok_iff.1 h
  obtain ⟨length, r₂, -, h⟩ := bind_eq_ok_iff.1 h
  rw [run_get_bind] at h
  obtain ⟨body, r₃, hbody, h⟩ := bind_eq_ok_iff.1 h
  cases h
  have hlength := length.toNat_lt_size
  rw [← Nat.mul_lt_mul_left (Nat.zero_lt_succ 3), ← length_take hbody] at hlength
  exact hlength

theorem remaining_recordWithTag {tag : Tag} {expectation : Expectation} {body r r' : Reader}
    (h : recordWithTag tag expectation r = .ok body r') : body.remaining < 4 * UInt32.size := by
  rw [recordWithTag, run_get_bind] at h
  obtain ⟨⟨actual, body⟩, r₁, hfound, h⟩ := bind_eq_ok_iff.1 h
  dsimp only at h
  split at h
  · cases h
    exact remaining_record hfound
  · cases h

theorem remaining_unlessEmpty_word {w : UInt32} {r r' : Reader}
    (h : unlessEmpty word r = .ok (some w) r') : r'.remaining + 4 ≤ r.remaining := by
  rw [unlessEmpty, run_get_bind] at h
  split at h
  · cases h
  · obtain ⟨w', r₁, hword, h⟩ := bind_eq_ok_iff.1 h
    cases h
    exact Nat.le_of_eq (remaining_word hword)

theorem within_eq_ok_iff {α : Type} {p : Decoder α} {a : α} {body r r' : Reader} :
    within body p r = .ok a r' ↔ (∃ rest, p body = .ok a rest) ∧ r' = r := by
  rw [within]
  split
  · next a' rest h =>
    rw [h]
    constructor
    · rintro ⟨⟩
      exact ⟨⟨rest, rfl⟩, rfl⟩
    · rintro ⟨⟨_, ⟨⟩⟩, rfl⟩
      rfl
  · next h =>
    rw [h]
    constructor
    · rintro ⟨⟩
    · rintro ⟨⟨_, ⟨⟩⟩, -⟩

end Decoder

namespace NotesDecoder

variable {α β : Type} {P : SymbolTable → α → Prop} {Q : SymbolTable → β → Prop}

/-- A record of blocks has a word for each block. -/
theorem length_blocks {flags : List UInt32} {r r' : Reader} (h : blocks r = .ok flags r') :
    4 * flags.length ≤ r.remaining :=
  (repeats_of_repeatWhile h).length_le fun _ _ _ _ => Decoder.remaining_unlessEmpty_word

/-! ### What a step ensures -/

/-- Whenever a step succeeds, it has pooled names only in addition, and its value has a property
that may depend on the pooled names and that stays when more names are pooled. -/
def Ensures (p : NotesDecoder α) (P : SymbolTable → α → Prop) : Prop :=
  ∀ s a s', p s = .ok a s' → s.symbols.GrowsTo s'.symbols ∧ ∀ t, s'.symbols.GrowsTo t → P t a

theorem ensures_pure {a : α} (ha : ∀ t, P t a) : Ensures (pure a) P := by
  rintro s _ _ ⟨⟩
  exact ⟨.refl _, fun t _ => ha t⟩

theorem ensures_get : Ensures get fun _ _ => True := by
  rintro s _ _ ⟨⟩
  exact ⟨.refl _, fun _ _ => trivial⟩

/-- A step that pools no name ensures what it tells about its value. -/
theorem ensures_reading {p : Decoder α} {P : α → Prop} (h : ∀ r a r', p r = .ok a r' → P a) :
    Ensures (reading p) fun _ a => P a := by
  intro s a s' hs
  rw [reading] at hs
  split at hs
  · next hr =>
    cases hs
    exact ⟨.refl _, fun _ _ => h _ _ _ hr⟩
  · cases hs

theorem ensures_true (p : Decoder α) : Ensures (reading p) fun _ _ => True :=
  ensures_reading fun _ _ _ _ => trivial

theorem ensures_failAt (position : Nat) (e : Error) :
    Ensures (reading (Decoder.failAt position e)) P := by
  rintro s a s' ⟨⟩

theorem Ensures.within {p : NotesDecoder α} (hp : Ensures p P) (body : Reader) :
    Ensures (within body p) P := by
  intro s a s' hs
  rw [NotesDecoder.within] at hs
  split at hs
  · next s'' hr =>
    cases hs
    exact hp { s with reader := body } a s'' hr
  · cases hs

theorem ensures_intern (name : String) : Ensures (intern name) SymbolTable.Knows := by
  rintro s _ _ ⟨⟩
  exact ⟨s.symbols.growsTo_intern name, fun _ => (s.symbols.knows_intern name).of_growsTo⟩

/-- What two steps ensure, one after the other, is ensured by both together. The second step may
use what holds of the value of the first. -/
theorem Ensures.bind {p : NotesDecoder α} {f : α → NotesDecoder β} (hp : Ensures p P)
    (hf : ∀ a, Ensures (f a) fun t b => P t a → Q t b) : Ensures (p >>= f) Q := by
  intro s b s'' h
  obtain ⟨a, s', ha, hb⟩ := bind_eq_ok_iff.1 h
  obtain ⟨hgrows, hP⟩ := hp s a s' ha
  obtain ⟨hgrows', hQ⟩ := hf a s' b s'' hb
  exact ⟨hgrows.trans hgrows', fun t ht => hQ t ht (hP t (hgrows'.trans ht))⟩

/-- The same where nothing is used. -/
theorem Ensures.andThen {p : NotesDecoder α} {f : α → NotesDecoder β} (hp : Ensures p P)
    (hf : ∀ a, Ensures (f a) Q) : Ensures (p >>= f) Q := by
  refine hp.bind fun a s b s' h => ?_
  obtain ⟨hgrows, hQ⟩ := hf a s b s' h
  exact ⟨hgrows, fun t ht _ => hQ t ht⟩

theorem Ensures.map {p : NotesDecoder α} (hp : Ensures p P) (f : α → β)
    (hf : ∀ t a, P t a → Q t (f a)) : Ensures (p >>= fun a => pure (f a)) Q :=
  hp.bind fun a => ensures_pure fun t => hf t a

/-- What a step ensures of the value that it yields, its repetition ensures of all values. -/
theorem Ensures.repeatWhile {size : NotesState → Nat} {step : NotesDecoder (Option α)}
    {h : ∀ _ : Option α, Yields size step} (hstep : Ensures step fun t o => ∀ a ∈ o, P t a)
    (previous : Option α) : Ensures (repeatWhile size (fun _ => step) h previous)
      fun t as => ∀ a ∈ as, P t a := by
  intro s as s' hs
  induction repeats_of_repeatWhile hs with
  | stop last => exact ⟨(hstep _ _ _ last).1, fun _ _ a ha => absurd ha List.not_mem_nil⟩
  | next first rest ih =>
    obtain ⟨hgrows, ha⟩ := hstep _ _ _ first
    obtain ⟨hgrows', has⟩ := ih rest.repeatWhile_eq
    refine ⟨hgrows.trans hgrows', fun t ht => List.forall_mem_cons.2 ⟨?_, has t ht⟩⟩
    exact ha t (hgrows'.trans ht) _ rfl

/-! ### Fields and bodies -/

theorem ensures_symbol : Ensures symbol SymbolTable.Knows := by
  refine (ensures_true _).andThen fun name => ?_
  split
  · exact ensures_intern _
  · exact ensures_pure SymbolTable.knows_unknown

theorem ensures_announcement : Ensures announcement fun t a => t.Knows a.source := by
  refine (ensures_true _).andThen fun ident => ?_
  refine (ensures_true _).andThen fun checksum => ?_
  refine (ensures_true _).andThen fun name => ?_
  refine ensures_symbol.bind fun source => ?_
  exact (ensures_true _).map _ fun t line _ hsource => hsource

theorem ensures_line : Ensures line fun t o => ∀ l ∈ o, ∀ x, l = .file x → t.Knows x := by
  refine (ensures_true _).andThen fun number => ?_
  split
  · refine ensures_pure fun t => ?_
    rintro _ ⟨⟩ _ ⟨⟩
  · refine (ensures_true _).andThen fun name => ?_
    split
    · refine (ensures_intern _).map _ fun t x hx => ?_
      rintro _ ⟨⟩ _ ⟨⟩
      exact hx
    · refine ensures_pure fun t => ?_
      rintro _ ⟨⟩

theorem ensures_lines : Ensures lines fun t r => ∀ x, .file x ∈ r.items → t.Knows x := by
  refine (ensures_true _).andThen fun block => ?_
  exact (ensures_line.repeatWhile none).map _ fun t items hitems x hx => hitems _ hx x rfl

/-! ### Functions -/

theorem ensures_segment : Ensures segment fun t o =>
    ∀ s ∈ o, ∀ r, s.lines? = some r → ∀ x, .file x ∈ r.items → t.Knows x := by
  refine ensures_get.andThen fun s => ?_
  have hnone : Ensures (pure none) fun (t : SymbolTable) (o : Option (Segment Symbol)) =>
      ∀ s ∈ o, ∀ r, s.lines? = some r → ∀ x, .file x ∈ r.items → t.Knows x :=
    ensures_pure fun t => by rintro _ ⟨⟩
  dsimp only
  split
  · exact hnone
  split
  · exact ensures_failAt _ _
  split
  · exact hnone
  split
  · refine (ensures_true _).andThen fun found => (ensures_true _).map _ fun t r _ => ?_
    rintro _ ⟨⟩ _ ⟨⟩
  split
  · refine (ensures_true _).andThen fun found => (ensures_lines.within _).map _ fun t r hr => ?_
    rintro _ ⟨⟩ _ ⟨⟩
    exact hr
  · exact ensures_failAt _ _

theorem ensures_functionGroup : Ensures functionGroup fun t g => g.record.Pooled t := by
  refine (ensures_true _).andThen fun body => ?_
  refine (ensures_announcement.within body).bind fun a => ?_
  refine (ensures_reading fun _ _ _ => Decoder.remaining_recordWithTag).bind fun body => ?_
  have hblocks : Ensures (reading (Decoder.within body blocks))
      fun _ flags => 4 * flags.length ≤ body.remaining :=
    ensures_reading fun _ _ _ h => length_blocks (Decoder.within_eq_ok_iff.1 h).1.choose_spec
  refine hblocks.bind fun flags => ?_
  refine (ensures_segment.repeatWhile none).map _
    fun t segments hsegments hflags hbody hsource => ⟨?_, ?_⟩
  · change flags.length < _
    omega
  · rintro x (rfl | ⟨r, hr, hx⟩)
    · exact hsource
    · obtain ⟨s, hs, hr⟩ := List.mem_filterMap.1 hr
      exact hsegments s hs r hr x hx

theorem ensures_nextFunction :
    Ensures nextFunction fun t o => ∀ g ∈ o, g.record.Pooled t := by
  refine ensures_get.andThen fun s => ?_
  split
  · exact ensures_pure fun t => by rintro _ ⟨⟩
  · refine ensures_functionGroup.map _ fun t g hg => ?_
    rintro _ ⟨⟩
    exact hg

/-- Every symbol in the records of a notes file belongs to the table of the pooled names. -/
theorem pooled_of_notesFile {s s' : NotesState} {file : NotesFile Symbol}
    (h : notesFile s = .ok file s') : ∀ record ∈ file.functions, record.Pooled s'.symbols := by
  rw [notesFile, run_get_bind] at h
  dsimp only at h
  split at h
  · cases h
  · have hfile := (ensures_nextFunction.repeatWhile (h := fun _ => yields_nextFunction) none).map
      (Q := fun t file => ∀ record ∈ file.functions, record.Pooled t)
      (fun groups => NotesFile.mk s.reader.version s.reader.stamp (groups.map FunctionGroup.record))
      fun t groups hgroups => List.forall_mem_map.2 hgroups
    exact (hfile s file s' h).2 _ (.refl _)

end NotesDecoder

end CoverageFlow
