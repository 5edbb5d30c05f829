import CoverageFlow.Proofs.Reader.Word
import CoverageFlow.Reader.Notes

/-!
# The language of notes files

What follows the header of a notes file is accepted exactly if it belongs to the language of the
format: groups of framed records, one group for each function, whose bodies have the shape that
their tags ask for. A word of zeros may mark the end of the file. Anything else is refused as cut
off, as a name that is not UTF-8, or as a record out of place.

The records of a function are not counted. The reader stops before a record that announces another
function, and such a record never stands inside a function, so looking ahead accepts nothing more
and nothing less than the language does.

## Main definitions

* `NotesLanguage.file`: the language of notes files, put together from those of its records.
* `NotesLanguage.faults`: what may be wrong with a notes file.

## Main results

* `NotesDecoder.recognizes_functionGroup`: the records of one function.
* `NotesDecoder.notesFile_eq_ok_iff`: which notes files are read.
-/

open scoped Computability

namespace CoverageFlow

namespace NotesLanguage

/-- Any single word. -/
def word : Language UInt32 :=
  {ws | ws.length = 1}

/-- The number of a line. -/
def number : Language UInt32 :=
  {ws | ∃ n, n ≠ 0 ∧ ws = [n]}

/-- A name that is present. -/
def presentName (o : ByteOrder) : Language UInt32 :=
  {ws | ∃ s, ws ∈ nameWords o (some s)}

/-- A name, present or not. -/
def name (o : ByteOrder) : Language UInt32 :=
  {ws | ∃ s, ws ∈ nameWords o s}

/-- The body of an announcement: identifier, checksum, name, source file and line. Whatever comes
behind them is skipped. -/
def announcement (o : ByteOrder) : Language UInt32 :=
  word * word * name o * name o * word * ⊤

/-- The body of a record of arcs: their source, and two words for each. -/
def arcs : Language UInt32 :=
  {ws | Odd ws.length}

/-- An entry of a record of lines: the number of a line, or a zero and the name of a file. -/
def entry (o : ByteOrder) : Language UInt32 :=
  number + {[0]} * presentName o

/-- The body of a record of lines: its block, and entries up to a zero without a name. Whatever
comes behind them is skipped. -/
def lines (o : ByteOrder) : Language UInt32 :=
  word * (entry o)∗ * {[0, 0]} * ⊤

/-- A record of arcs or of lines. -/
def segment (o : ByteOrder) : Language UInt32 :=
  records .arcs arcs + records .lines (lines o)

/-- The records of a function: its announcement, its blocks, and any number of records of arcs and
of lines. -/
def function (o : ByteOrder) : Language UInt32 :=
  records .function (announcement o) * records .blocks ⊤ * (segment o)∗

/-- The records of a notes file. -/
def file (o : ByteOrder) : Language UInt32 :=
  (function o)∗

/-- What may be wrong with a notes file. -/
def faults : Set Error :=
  {e | e = .endOfFile ∨ (∃ fault, e = .invalidUtf8 fault) ∨
    ∃ tag reading, e = .unexpectedTag tag reading}

theorem endOfFile_mem_faults : .endOfFile ∈ faults := .inl rfl

theorem invalidUtf8_mem_faults (fault : Utf8.Fault) : .invalidUtf8 fault ∈ faults :=
  .inr (.inl ⟨fault, rfl⟩)

theorem unexpectedTag_mem_faults (tag : Tag) (reading : Expectation) :
    .unexpectedTag tag reading ∈ faults :=
  .inr (.inr ⟨tag, reading, rfl⟩)

end NotesLanguage

namespace NotesDecoder

open NotesLanguage

variable {α β γ : Type} {o : ByteOrder} {stray : List UInt8} {V : α → β → Prop}

/-- The reader of a state shows certain words. -/
abbrev Shows (o : ByteOrder) (stray : List UInt8) (ws : List UInt32) (s : NotesState) : Prop :=
  Reader.Shows o stray ws s.reader

/-! ### Steps of a reader -/

theorem realizes_reading {p : Decoder α} {F : List UInt32 → β → List UInt32 → Prop}
    (hp : Realizes faults (Reader.Shows o stray) V p F) :
    Realizes faults (Shows o stray) V (reading p) F := by
  intro x s hs
  have hinside : reading p s = inside (fun r => { s with reader := r }) (p s.reader) := by
    rw [reading]
    cases p s.reader <;> rfl
  rw [hinside]
  refine ((hp x s.reader hs).inside (K := Shows o stray) (g := fun r => { s with reader := r })
    (k := id) fun _ _ hr => hr).congr fun b z => ?_
  simp only [id, exists_eq_right']

theorem recognizes_reading {p : Decoder α} {R : List UInt32 → List UInt32 → Prop}
    (hp : Recognizes faults (Reader.Shows o stray) p R) :
    Recognizes faults (Shows o stray) (reading p) R :=
  realizes_reading hp

/-- A step on the body of a record reads the body, and the reader of the file does not move. -/
theorem recognizes_within {p : NotesDecoder α} {R : List UInt32 → List UInt32 → Prop}
    (hp : Recognizes faults (Shows o []) p R) {body : Reader} {ws : List UInt32}
    (hbody : body.Shows o [] ws) :
    Recognizes faults (Shows o stray) (within body p) fun x y => (∃ rest, R ws rest) ∧ y = x := by
  intro x s hs
  have hinside : within body p s =
      inside (fun s' => { s' with reader := s.reader }) (p { s with reader := body }) := by
    rw [within]
    cases p { s with reader := body } <;> rfl
  rw [hinside]
  refine ((hp ws { s with reader := body } hbody).inside (K := Shows o stray)
    (g := fun s' => { s' with reader := s.reader }) (k := fun _ => x) fun _ _ _ => hs).congr
      fun b z => ?_
  rw [exists_and_right]

/-! ### Names -/

theorem recognizes_word :
    Recognizes faults (Reader.Shows o stray) Decoder.word (Heads NotesLanguage.word) := by
  refine (Decoder.realizes_word endOfFile_mem_faults).recognizes.congr fun x y => ?_
  constructor
  · rintro ⟨w, rfl⟩
    exact ⟨[w], rfl, rfl⟩
  · rintro ⟨u, hu, rfl⟩
    obtain ⟨w, rfl⟩ := List.length_eq_one_iff.1 hu
    exact ⟨w, rfl⟩

theorem recognizes_intern (name : String) :
    Recognizes faults (Shows o stray) (intern name) fun x y => y = x := by
  intro x s hs
  refine .ok (b := ()) (y := x) trivial hs rfl fun _ _ h => ⟨rfl, h⟩

theorem recognizes_string :
    Recognizes faults (Reader.Shows o stray) Decoder.string (Heads (name o)) := by
  refine (Decoder.realizes_string endOfFile_mem_faults
    invalidUtf8_mem_faults).recognizes.congr fun x y => ?_
  constructor
  · rintro ⟨s, u, hu, rfl⟩
    exact ⟨u, ⟨s, hu⟩, rfl⟩
  · rintro ⟨u, ⟨s, hu⟩, rfl⟩
    exact ⟨s, u, hu, rfl⟩

theorem recognizes_symbol :
    Recognizes faults (Shows o stray) symbol (Heads (name o)) := by
  rw [← mul_one (name o)]
  refine (recognizes_reading recognizes_string).bind_heads fun name => ?_
  rw [heads_one]
  split
  · exact recognizes_intern _
  · exact recognizes_pure _

/-! ### Bodies -/

theorem recognizes_announcement :
    Recognizes faults (Shows o []) announcement (Heads (word * word *
      name o * name o * word)) := by
  simp only [mul_assoc]
  refine (recognizes_reading recognizes_word).bind_heads fun ident => ?_
  refine (recognizes_reading recognizes_word).bind_heads fun checksum => ?_
  refine (recognizes_reading recognizes_string).bind_heads fun name => ?_
  refine recognizes_symbol.bind_heads fun source => ?_
  exact (recognizes_reading recognizes_word).map _

theorem not_heads_word_nil (y : List UInt32) : ¬ Heads word [] y := by
  rintro ⟨u, hu, h⟩
  obtain ⟨rfl, -⟩ := List.append_eq_nil_iff.1 h.symm
  cases hu

theorem recognizes_blocks : Recognizes faults (Reader.Shows o []) blocks fun _ y => y = [] := by
  refine (Decoder.recognizes_untilEmpty recognizes_word not_heads_word_nil).congr
    fun x y => and_iff_right ?_
  induction x with
  | nil => exact .refl
  | cons w x ih => exact .head ⟨[w], rfl, rfl⟩ ih

/-- Words can be taken in pairs if their number is even. -/
theorem reflTransGen_heads_pair {x : List UInt32} :
    Relation.ReflTransGen (Heads (word * word)) x [] ↔
      Even x.length := by
  constructor
  · intro h
    induction h using Relation.ReflTransGen.head_induction_on with
    | refl => exact Even.zero
    | head first _ ih =>
      obtain ⟨_, hu, rfl⟩ := first
      obtain ⟨v, hv, w, hw, rfl⟩ := Language.mem_mul.1 hu
      rw [List.length_append, List.length_append, show v.length = 1 from hv,
        show w.length = 1 from hw]
      exact (by decide : Even 2).add ih
  · intro h
    match x with
    | [] => exact .refl
    | [w] => cases Nat.not_even_one h
    | v :: w :: x =>
      refine .head ⟨[v, w], Language.append_mem_mul (a := [v]) (b := [w]) rfl rfl, rfl⟩ ?_
      exact reflTransGen_heads_pair.2 ((Nat.even_add (n := 2)).1 h |>.2 even_two)

theorem recognizes_arcs : Recognizes faults (Reader.Shows o []) arcs
    fun x y => x ∈ NotesLanguage.arcs ∧ y = [] := by
  have harc : Recognizes faults (Reader.Shows o []) arc
      (Heads (word * word)) :=
    recognizes_word.bind_heads fun _ => recognizes_word.map _
  have hempty (y : List UInt32) : ¬ Heads (word * word) [] y := by
    rw [heads_mul]
    rintro ⟨_, h, -⟩
    exact not_heads_word_nil _ h
  refine (recognizes_word.bind fun _ =>
    (Decoder.recognizes_untilEmpty harc hempty).map _).congr fun x y => ?_
  simp only [reflTransGen_heads_pair]
  constructor
  · rintro ⟨y, ⟨u, hu, rfl⟩, heven, rfl⟩
    have hodd : Odd (u ++ y).length := by
      rw [List.length_append, show u.length = 1 from hu]
      exact odd_one.add_even heven
    exact ⟨hodd, rfl⟩
  · match x with
    | [] =>
      rintro ⟨hodd, -⟩
      cases Nat.not_odd_zero hodd
    | w :: x =>
      rintro ⟨hodd, rfl⟩
      exact ⟨x, ⟨[w], rfl, rfl⟩, Nat.not_odd_iff_even.1 (Nat.odd_add_one.1 hodd), rfl⟩

/-- An entry is the number of a line, or a zero and a name. -/
theorem heads_entry_iff {x z : List UInt32} : Heads (entry o) x z ↔
    (∃ n, n ≠ 0 ∧ x = n :: z) ∨ ∃ y, x = 0 :: y ∧ ∃ s, Heads (nameWords o (some s)) y z := by
  rw [entry, heads_add, heads_mul]
  constructor
  · rintro (⟨_, ⟨n, hn, rfl⟩, rfl⟩ | ⟨y, ⟨_, rfl, rfl⟩, u, ⟨s, hs⟩, rfl⟩)
    · exact .inl ⟨n, hn, rfl⟩
    · exact .inr ⟨_, rfl, s, u, hs, rfl⟩
  · rintro (⟨n, hn, rfl⟩ | ⟨_, rfl, s, u, hs, rfl⟩)
    · exact .inl ⟨[n], ⟨n, hn, rfl⟩, rfl⟩
    · exact .inr ⟨u ++ z, ⟨[0], rfl, rfl⟩, u, ⟨s, hs⟩, rfl⟩

theorem realizes_line :
    Realizes faults (Shows o []) (Option.Rel fun _ (_ : Unit) => True) line fun x b y =>
      b = some () ∧ Heads (entry o) x y ∨ b = none ∧ Heads {[0, 0]} x y := by
  refine ((realizes_reading (Decoder.realizes_word endOfFile_mem_faults)).bind_eq
    (G := fun n y b z => n ≠ 0 ∧ b = some () ∧ z = y ∨
      n = 0 ∧ ∃ name, Heads (nameWords o name) y z ∧ b = name.map fun _ => ()) fun n => ?_).congr ?_
  · split
    · next hn =>
      refine (realizes_pure (b := some ()) (.some trivial)).congr fun x b y => ?_
      simp [hn]
    · next hn =>
      have hname := realizes_reading
        (@Decoder.realizes_string faults o [] endOfFile_mem_faults invalidUtf8_mem_faults)
      refine (hname.bind_eq (G := fun name y b z => b = name.map (fun _ => ()) ∧ z = y)
        fun name => ?_).congr fun x b y => ?_
      · cases name with
        | none => exact recognizes_none
        | some name => exact (recognizes_intern name).map_some _
      · simp [not_not.1 hn]
  · intro x b z
    rw [heads_entry_iff, heads_singleton]
    constructor
    · rintro ⟨n, y, rfl, ⟨hn, rfl, rfl⟩ | ⟨rfl, _ | s, hname, rfl⟩⟩
      · exact .inl ⟨rfl, .inl ⟨n, hn, rfl⟩⟩
      · obtain ⟨_, rfl, rfl⟩ := hname
        exact .inr ⟨rfl, rfl⟩
      · exact .inl ⟨rfl, .inr ⟨y, rfl, s, hname⟩⟩
    · rintro (⟨rfl, ⟨n, hn, rfl⟩ | ⟨y, rfl, s, hname⟩⟩ | ⟨rfl, rfl⟩)
      · exact ⟨n, z, rfl, .inl ⟨hn, rfl, rfl⟩⟩
      · exact ⟨0, y, rfl, .inr ⟨rfl, some s, hname, rfl⟩⟩
      · exact ⟨0, 0 :: z, rfl, .inr ⟨rfl, none, ⟨[0], rfl, rfl⟩, rfl⟩⟩

theorem recognizes_lines :
    Recognizes faults (Shows o []) lines
      (Heads (word * (entry o)∗ * {[0, 0]})) := by
  rw [mul_assoc]
  refine (recognizes_reading recognizes_word).bind_heads fun _ => Recognizes.map ?_ _
  rw [heads_mul, heads_kstar]
  exact Recognizes.repeatWhile realizes_line

/-! ### Records -/

section

variable {L : Language UInt32} {p : Reader → NotesDecoder α}

/-- A record is read through its body. -/
theorem recognizes_record (hp : ∀ body ws, body.Shows o [] ws →
      Recognizes faults (Shows o stray) (p body) fun x y => ws ∈ L ∧ y = x) :
    Recognizes faults (Shows o stray) (reading Decoder.record >>= fun found => p found.2)
      fun x y => ∃ tag, Heads (records tag L) x y := by
  refine (Realizes.bind (realizes_reading (Decoder.realizes_record endOfFile_mem_faults))
    fun found record h => hp found.2 record.2 h.2).congr fun x _ z => ?_
  simp only [heads_records]
  constructor
  · rintro ⟨⟨tag, body⟩, _, ⟨rfl, hlength⟩, hbody, rfl⟩
    exact ⟨tag, body, hbody, hlength, rfl⟩
  · rintro ⟨tag, body, hbody, hlength, rfl⟩
    exact ⟨(tag, body), z, ⟨rfl, hlength⟩, hbody, rfl⟩

/-- A record with a given tag is read through its body. -/
theorem recognizes_recordWithTag (hp : ∀ body ws, body.Shows o [] ws →
      Recognizes faults (Shows o stray) (p body) fun x y => ws ∈ L ∧ y = x)
    (tag : Tag) (expectation : Expectation) :
    Recognizes faults (Shows o stray) (reading (Decoder.recordWithTag tag expectation) >>= p)
      (Heads (records tag L)) := by
  refine (Realizes.bind (realizes_reading (Decoder.realizes_recordWithTag endOfFile_mem_faults
    unexpectedTag_mem_faults tag expectation)) hp).congr fun x _ z => ?_
  rw [heads_records]
  constructor
  · rintro ⟨body, _, ⟨rfl, hlength⟩, hbody, rfl⟩
    exact ⟨body, hbody, hlength, rfl⟩
  · rintro ⟨body, hbody, hlength, rfl⟩
    exact ⟨body, z, ⟨rfl, hlength⟩, hbody, rfl⟩

end

section

variable {body : Reader} {ws : List UInt32}

theorem recognizes_within_announcement (hbody : body.Shows o [] ws) :
    Recognizes faults (Shows o stray) (within body announcement)
      fun x y => ws ∈ NotesLanguage.announcement o ∧ y = x := by
  refine (recognizes_within recognizes_announcement hbody).congr fun x y => ?_
  rw [exists_heads_iff]
  rfl

theorem recognizes_within_blocks (hbody : body.Shows o [] ws) :
    Recognizes faults (Shows o stray) (reading (Decoder.within body blocks))
      fun x y => ws ∈ (⊤ : Language UInt32) ∧ y = x :=
  (recognizes_reading (Decoder.realizes_within recognizes_blocks hbody)).congr fun _ _ =>
    and_congr_left fun _ => iff_of_true ⟨[], rfl⟩ trivial

theorem recognizes_within_arcs (hbody : body.Shows o [] ws) :
    Recognizes faults (Shows o stray) (reading (Decoder.within body arcs))
      fun x y => ws ∈ NotesLanguage.arcs ∧ y = x := by
  refine (recognizes_reading (Decoder.realizes_within recognizes_arcs hbody)).congr fun x y => ?_
  rw [exists_and_left, and_iff_left exists_eq]

theorem recognizes_within_lines (hbody : body.Shows o [] ws) :
    Recognizes faults (Shows o stray) (within body lines)
      fun x y => ws ∈ NotesLanguage.lines o ∧ y = x := by
  refine (recognizes_within recognizes_lines hbody).congr fun x y => ?_
  rw [exists_heads_iff]
  rfl

end

/-! ### Functions -/

/-- The records of a function end before the announcement of another one, and at the end of the
file. -/
def FunctionEndsAt (stray : List UInt8) (ws : List UInt32) : Prop :=
  Reader.EndsAt stray ws ∨ ws.head? = some Tag.function.word

theorem not_heads_segment {x y : List UInt32} (h : FunctionEndsAt stray x) :
    ¬ Heads (NotesLanguage.segment o) x y := by
  rw [NotesLanguage.segment, heads_add]
  obtain hend | hfunction := h
  · exact not_or.2 ⟨Reader.not_heads_records_of_endsAt hend,
      Reader.not_heads_records_of_endsAt hend⟩
  · obtain ⟨x, rfl⟩ := List.head?_eq_some_iff.1 hfunction
    rintro (hrecord | hrecord)
    · cases tag_of_heads_records hrecord
    · cases tag_of_heads_records hrecord

/-- A record of arcs or lines that is not the end of a function is read through its body. -/
theorem realizes_segmentRecord {L : Language UInt32} {p : Reader → NotesDecoder α} {tag : Tag}
    (hp : ∀ body ws, body.Shows o [] ws →
      Recognizes faults (Shows o stray) (p body) fun x y => ws ∈ L ∧ y = x)
    (hL : ∀ x y, Heads (NotesLanguage.segment o) (tag.word :: x) y ↔
      Heads (records tag L) (tag.word :: x) y)
    (f : α → Segment Symbol) {x : List UInt32} {s : NotesState}
    (hs : Shows o stray (tag.word :: x) s) (hcontinues : ¬ FunctionEndsAt stray (tag.word :: x)) :
    Meets faults (Shows o stray) (Option.Rel fun _ (_ : Unit) => True)
      (fun b y => b = some () ∧ Heads (NotesLanguage.segment o) (tag.word :: x) y ∨
        b = none ∧ FunctionEndsAt stray (tag.word :: x) ∧ y = tag.word :: x)
      ((reading Decoder.record >>= fun found => p found.2 >>= fun a => pure (some (f a))) s) := by
  rw [← bind_assoc]
  refine ((recognizes_record hp).map_some f _ s hs).congr fun b y => ?_
  simp only [hcontinues, hL, exists_heads_records_iff, false_and, and_false, or_false]

theorem heads_segment_arcs (x y : List UInt32) :
    Heads (NotesLanguage.segment o) (Tag.arcs.word :: x) y ↔
      Heads (records .arcs NotesLanguage.arcs) (Tag.arcs.word :: x) y := by
  rw [NotesLanguage.segment, heads_add, or_iff_left]
  intro h
  cases tag_of_heads_records h

theorem heads_segment_lines (x y : List UInt32) :
    Heads (NotesLanguage.segment o) (Tag.lines.word :: x) y ↔
      Heads (records .lines (NotesLanguage.lines o)) (Tag.lines.word :: x) y := by
  rw [NotesLanguage.segment, heads_add, or_iff_right]
  intro h
  cases tag_of_heads_records h

theorem realizes_segment :
    Realizes faults (Shows o stray) (Option.Rel fun _ (_ : Unit) => True) segment fun x b y =>
      b = some () ∧ Heads (NotesLanguage.segment o) x y ∨
        b = none ∧ FunctionEndsAt stray x ∧ y = x := by
  intro x s hs
  have hstop (hend : FunctionEndsAt stray x) : Meets faults (Shows o stray)
      (Option.Rel fun _ (_ : Unit) => True) (fun b y => b = some () ∧
        Heads (NotesLanguage.segment o) x y ∨ b = none ∧ FunctionEndsAt stray x ∧ y = x)
      (.ok (none : Option (Segment Symbol)) s) := by
    refine .ok .none hs (.inr ⟨rfl, hend, rfl⟩) ?_
    rintro b y (⟨-, hsegment⟩ | ⟨rfl, -, rfl⟩)
    · exact absurd hsegment (not_heads_segment hend)
    · exact ⟨rfl, rfl⟩
  rw [segment, run_get_bind]
  by_cases hend : Reader.EndsAt stray x
  · rw [if_pos (hs.isFinished_iff.2 hend)]
    exact hstop (.inl hend)
  rw [if_neg (mt hs.isFinished_iff.1 hend), hs.nextTag_eq]
  match x with
  | [] =>
    refine .error (unexpectedTag_mem_faults _ _) ?_
    rintro b y (⟨-, hsegment⟩ | ⟨-, hends | hhead, -⟩)
    · obtain h | h := heads_add.1 hsegment
      · exact not_heads_records_nil h
      · exact not_heads_records_nil h
    · exact hend hends
    · cases hhead
  | w :: x =>
    rw [List.head?_cons, Option.map_some]
    dsimp only
    obtain ⟨tag, rfl⟩ : ∃ tag : Tag, w = tag.word := ⟨⟨w⟩, rfl⟩
    by_cases hfunction : tag = Tag.function
    · rw [if_pos hfunction]
      exact hstop (.inr (congrArg some (congrArg Tag.word hfunction)))
    have hcontinues : ¬ FunctionEndsAt stray (tag.word :: x) := by
      rintro (hends | hhead)
      · exact hend hends
      · exact hfunction (congrArg Tag.mk (Option.some.inj hhead))
    rw [if_neg hfunction]
    by_cases harcs : tag = Tag.arcs
    · subst harcs
      rw [if_pos rfl]
      exact realizes_segmentRecord (fun _ _ => recognizes_within_arcs) heads_segment_arcs _ hs
        hcontinues
    rw [if_neg harcs]
    by_cases hlines : tag = Tag.lines
    · subst hlines
      rw [if_pos rfl]
      exact realizes_segmentRecord (fun _ _ => recognizes_within_lines) heads_segment_lines _ hs
        hcontinues
    · rw [if_neg hlines]
      refine .error (unexpectedTag_mem_faults _ _) ?_
      rintro b y (⟨-, hsegment⟩ | ⟨-, hstops, -⟩)
      · obtain h | h := heads_add.1 hsegment
        · exact harcs (tag_of_heads_records h).symm
        · exact hlines (tag_of_heads_records h).symm
      · exact hcontinues hstops

theorem recognizes_functionGroup :
    Recognizes faults (Shows o stray) functionGroup
      fun x y => Heads (NotesLanguage.function o) x y ∧ FunctionEndsAt stray y := by
  have hrun : Recognizes faults (Shows o stray) functionGroup <| Relation.Comp
      (Heads (records .function (NotesLanguage.announcement o))) <| Relation.Comp
      (Heads (records .blocks ⊤)) <| Relation.Comp
      (Relation.ReflTransGen (Heads (NotesLanguage.segment o)))
      fun x y => FunctionEndsAt stray x ∧ y = x := by
    rw [functionGroup, ← bind_assoc]
    refine (recognizes_recordWithTag (fun _ _ => recognizes_within_announcement) _ _).bind
      fun announcement => ?_
    rw [← bind_assoc]
    refine (recognizes_recordWithTag (fun _ _ => recognizes_within_blocks) _ _).bind
      fun blocks => ?_
    exact (Recognizes.repeatWhile realizes_segment).map _
  refine hrun.congr fun x z => ?_
  rw [NotesLanguage.function, heads_mul, heads_mul, heads_kstar, ← Relation.comp_assoc,
    ← Relation.comp_assoc]
  exact ⟨fun ⟨_, h, hend, heq⟩ => heq ▸ ⟨h, hend⟩, fun ⟨h, hend⟩ => ⟨z, h, hend, rfl⟩⟩

/-- The records of a function begin with its announcement. -/
theorem exists_heads_announcement {x y : List UInt32} (h : Heads (NotesLanguage.function o) x y) :
    ∃ z, Heads (records .function (NotesLanguage.announcement o)) x z := by
  rw [NotesLanguage.function, heads_mul, heads_mul] at h
  obtain ⟨_, ⟨z, hz, -⟩, -⟩ := h
  exact ⟨z, hz⟩

theorem realizes_nextFunction :
    Realizes faults (Shows o stray) (Option.Rel fun _ (_ : Unit) => True) nextFunction fun x b y =>
      b = some () ∧ (Heads (NotesLanguage.function o) x y ∧ FunctionEndsAt stray y) ∨
        b = none ∧ Reader.EndsAt stray x ∧ y = x := by
  intro x s hs
  rw [nextFunction, run_get_bind]
  by_cases hend : Reader.EndsAt stray x
  · rw [if_pos (hs.isFinished_iff.2 hend)]
    refine .ok .none hs (.inr ⟨rfl, hend, rfl⟩) ?_
    rintro b y (⟨-, hfunction, -⟩ | ⟨rfl, -, rfl⟩)
    · obtain ⟨z, hz⟩ := exists_heads_announcement hfunction
      exact absurd hz (Reader.not_heads_records_of_endsAt hend)
    · exact ⟨rfl, rfl⟩
  · rw [if_neg (mt hs.isFinished_iff.1 hend)]
    refine (recognizes_functionGroup.map_some id x s hs).congr fun b y => ?_
    simp only [hend, false_and, and_false, or_false]

/-! ### Files -/

/-- Where functions follow one another up to the end of the file, each of them ends where the
reader sees that it ends. -/
theorem reflTransGen_function {x y : List UInt32} (hend : Reader.EndsAt stray y) :
    Relation.ReflTransGen (fun x y => Heads (function o) x y ∧ FunctionEndsAt stray y) x y ↔
      Heads (file o) x y := by
  rw [file, heads_kstar]
  refine ⟨fun h => h.lift id fun _ _ hstep => hstep.1, fun h => ?_⟩
  suffices hboth : Relation.ReflTransGen
      (fun x y => Heads (function o) x y ∧ FunctionEndsAt stray y) x y ∧ FunctionEndsAt stray x from
    hboth.1
  induction h using Relation.ReflTransGen.head_induction_on with
  | refl => exact ⟨.refl, .inl hend⟩
  | head first _ ih =>
    obtain ⟨z, hz⟩ := exists_heads_announcement first
    exact ⟨.head ⟨first, ih.2⟩ ih.1, .inr (head?_of_heads_records hz)⟩

/-- What the rest of a notes file is read as. -/
theorem recognizes_notesFile {x : List UInt32} {s : NotesState} (hs : Shows o stray x s)
    (htype : s.reader.fileType = .notes) :
    Meets faults (Shows o stray) (fun _ (_ : Unit) => True)
      (fun _ y => Heads (file o) x y ∧ Reader.EndsAt stray y) (notesFile s) := by
  have hrun := Recognizes.map (Recognizes.repeatWhile (h := fun _ => yields_nextFunction)
    (@realizes_nextFunction o stray))
    (fun groups => NotesFile.mk s.reader.version s.reader.stamp (groups.map FunctionGroup.record))
  rw [notesFile, run_get_bind, htype, if_neg (not_not_intro rfl)]
  refine (hrun x s hs).congr fun _ z => ?_
  constructor
  · rintro ⟨y, hy, hend, rfl⟩
    exact ⟨(reflTransGen_function hend).1 hy, hend⟩
  · rintro ⟨hz, hend⟩
    exact ⟨z, (reflTransGen_function hend).2 hz, hend, rfl⟩

/-- A notes file is read exactly if what follows its header belongs to the language of notes files,
but for a word of zeros that may stand at its end. -/
theorem notesFile_eq_ok_iff {bytes : List UInt8} {r : Reader} (h : Reader.ofBytes bytes = .ok r)
    (htype : r.fileType = .notes) (symbols : SymbolTable) :
    ((∃ file s, notesFile ⟨r, symbols⟩ = .ok file s) ↔
      ∃ ws ∈ NotesLanguage.file r.order, ∃ marked,
        bytes.drop 12 = Writer.words r.order ws ++ Writer.ending r.order marked) ∧
    ∀ e s, notesFile ⟨r, symbols⟩ = .error e s → e.error = .endOfFile ∨
      (∃ fault, e.error = .invalidUtf8 fault) ∨
        ∃ tag reading, e.error = .unexpectedTag tag reading := by
  obtain ⟨x, stray, hunread, hshort⟩ := Writer.exists_words r.order r.unread
  have hrun := recognizes_notesFile (s := ⟨r, symbols⟩) ⟨rfl, hunread, hshort⟩ htype
  refine ⟨?_, fun e s he => hrun.fails e s he⟩
  rw [← Reader.unread_ofBytes h, hunread, ← Reader.exists_heads_endsAt_iff hshort,
    hrun.exists_ok_iff, exists_const]

/-- The records of a function without a name, with two blocks and an arc between them. -/
def sampleWords : List UInt32 :=
  Writer.recordWords .function [7, 9, 0, 0, 1] ++ Writer.recordWords .blocks [0, 0] ++
    Writer.recordWords .arcs [0, 1, 4]

theorem sampleWords_mem_file (o : ByteOrder) : sampleWords ∈ file o := by
  have hname : [0] ∈ name o := ⟨none, rfl⟩
  have hfields : [7, 9] ++ [0] ++ [0] ++ [1] ∈ word * word * name o * name o * word :=
    Language.append_mem_mul (Language.append_mem_mul (Language.append_mem_mul
      (Language.append_mem_mul (a := [7]) (b := [9]) rfl rfl) hname) hname) rfl
  have hannouncement : [7, 9, 0, 0, 1] ∈ NotesLanguage.announcement o :=
    Language.append_mem_mul (b := []) hfields trivial
  have harcs : [0, 1, 4] ∈ NotesLanguage.arcs := ⟨1, rfl⟩
  have hsegment : Writer.recordWords .arcs [0, 1, 4] ∈ NotesLanguage.segment o :=
    .inl ⟨_, harcs, by decide, rfl⟩
  have hfunction : sampleWords ∈ function o :=
    Language.append_mem_mul (Language.append_mem_mul ⟨_, hannouncement, by decide, rfl⟩
      ⟨_, trivial, by decide, rfl⟩) (le_kstar (a := NotesLanguage.segment o) hsegment)
  exact le_kstar (a := function o) hfunction

/-- The sample is read with a mark at its end, but not with a stray byte. -/
theorem notesFile_eq_ok_iff_sample :
    (∃ r file s, Reader.ofBytes (Writer.header .little .notes ⟨0⟩ 5 ++
        (Writer.words .little sampleWords ++ Writer.word .little 0)) = .ok r ∧
      notesFile ⟨r, .empty⟩ = .ok file s) ∧
    ∃ r, Reader.ofBytes (Writer.header .little .notes ⟨0⟩ 5 ++ [0]) = .ok r ∧
      ¬ ∃ file s, notesFile ⟨r, .empty⟩ = .ok file s := by
  constructor
  · have hread := Reader.ofBytes_header .little .notes ⟨0⟩ 5
      (Writer.words .little sampleWords ++ Writer.word .little 0)
    obtain ⟨file, s, hfile⟩ := (notesFile_eq_ok_iff hread rfl .empty).1.2
      ⟨sampleWords, sampleWords_mem_file .little, true, rfl⟩
    exact ⟨_, file, s, hread, hfile⟩
  · have hread := Reader.ofBytes_header .little .notes ⟨0⟩ 5 [0]
    refine ⟨_, hread, fun hfile => ?_⟩
    obtain ⟨ws, -, marked, hbytes⟩ := (notesFile_eq_ok_iff hread rfl .empty).1.1 hfile
    have hlength := congrArg List.length hbytes
    have hending : 4 ∣ (Writer.ending .little marked).length := by
      cases marked <;> decide
    have hheader : (Writer.header .little .notes ⟨0⟩ 5).length = 12 := rfl
    rw [List.drop_left' hheader, List.length_append, Writer.length_words] at hlength
    change 1 = 4 * ws.length + (Writer.ending .little marked).length at hlength
    omega

end NotesDecoder

end CoverageFlow
