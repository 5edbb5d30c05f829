import CoverageFlow.Proofs.Reader.Outcome

/-!
# What the offset of a failure means

A file that cannot be read is told with one offset. What stands there in the file explains the
failure: a record with the tag that was not expected, the bytes of a name that are not UTF-8, or a
field, a header or a body of a record for which too few bytes are left. A data file may also end
without any object summary.

Which field is due at a place inside the body of a record depends on the tag of the record and on
the words of the body before that place. The fields of all bodies are therefore listed once, apart
from the steps that read them, and the steps are shown to fail where the list says that a field is
due.

## Main definitions

* `Slot`, `slots`, `due`: the fields of a body, and the field that is due behind some of its words.
* `RecordAt`, `Boundary`: records of a file, one behind the other.
* `Explains`: what stands at an offset of a file explains an error.

## Main results

* `Inside.word`, `Inside.string`: fields that are due are read, or the failure is explained.
* `Stands.record`: records are read from boundary to boundary, or the failure is explained.
* `diagnosis_truthful`: a file that is read is not told of, and a file that fails is told of once,
  with an offset that explains the error.
-/

namespace CoverageFlow

/-! ### The fields of bodies -/

/-- What the words of a body stand for. -/
inductive Slot where
  | word
  /-- The length of a name in words, and as many words. -/
  | name
  /-- Words up to the end of the body, which need not be there. -/
  | words
  /-- Pairs of words up to the end of the body. Only the second word of a pair must be there. -/
  | pairs
  /-- Line numbers; behind a zero stands a file. -/
  | entries
  /-- The name of the file of further entries. Where it is absent, the entries end. -/
  | file

/-- A field of a body. -/
inductive Field where
  | word
  /-- The words of a name behind its length. -/
  | payload (length : UInt32)

/-- The number of words of a field. -/
def Field.size : Field → ℕ
  | word => 1
  | payload length => length.toNat

/-- The field that is due behind some words of a body, if any is. -/
def due : List Slot → List UInt32 → Option Field
  | [], _ => none
  | .words :: _, _ => none
  | .pairs :: _, ws => if ws.length % 2 = 0 then none else some .word
  | _ :: _, [] => some .word
  | .word :: rest, _ :: ws => due rest ws
  | .name :: rest, n :: ws =>
    if ws.length < n.toNat then if ws.isEmpty then some (.payload n) else none
    else due rest (ws.drop n.toNat)
  | .entries :: rest, w :: ws => if w = 0 then due (.file :: rest) ws else due (.entries :: rest) ws
  | .file :: rest, n :: ws =>
    if n = 0 then none
    else if ws.length < n.toNat then if ws.isEmpty then some (.payload n) else none
    else due (.entries :: rest) (ws.drop n.toNat)
termination_by _ ws => ws.length
decreasing_by all_goals simp only [List.length_cons, List.length_drop]; omega

/-- The fields of the body of a record. -/
def slots (fileType : FileType) (tag : Tag) : List Slot :=
  match fileType with
  | .notes =>
    if tag = Tag.function then [.word, .word, .name, .name, .word]
    else if tag = Tag.blocks then [.words]
    else if tag = Tag.arcs then [.word, .pairs]
    else if tag = Tag.lines then [.word, .entries]
    else []
  | .data =>
    if tag = Tag.function then [.word, .word]
    else if tag = Tag.arcCounts then [.words]
    else if tag = Tag.objectSummary ∨ tag = Tag.programSummary then List.replicate 9 .word
    else []

theorem due_word (rest : List Slot) (w : UInt32) (ws : List UInt32) :
    due (.word :: rest) (w :: ws) = due rest ws := by
  rw [due]

theorem due_words (rest : List Slot) (ws : List UInt32) : due (.words :: rest) ws = none := by
  rw [due]

theorem due_second (rest : List Slot) (w : UInt32) : due (.pairs :: rest) [w] = some .word := by
  rw [due]
  rfl

theorem due_pair (rest : List Slot) (v w : UInt32) (ws : List UInt32) :
    due (.pairs :: rest) (v :: w :: ws) = due (.pairs :: rest) ws := by
  rw [due, due, List.length_cons, List.length_cons, Nat.add_assoc, Nat.add_mod_right]

theorem due_nil (slot : Slot) (rest : List Slot) (hwords : slot ≠ .words)
    (hpairs : slot ≠ .pairs) : due (slot :: rest) [] = some .word := by
  cases slot <;> first | contradiction | rw [due] <;> simp

theorem toNat_pos {n : UInt32} (h : n ≠ 0) : 0 < n.toNat :=
  Nat.pos_of_ne_zero fun hzero => h (UInt32.toNat_inj.1 hzero)

theorem due_name_length (rest : List Slot) {n : UInt32} (h : n ≠ 0) :
    due (.name :: rest) [n] = some (.payload n) := by
  rw [due, if_pos (show [].length < n.toNat from toNat_pos h)]
  rfl

theorem due_name (rest : List Slot) {n : UInt32} {chunk : List UInt32} (h : chunk.length = n.toNat)
    (ws : List UInt32) : due (.name :: rest) (n :: (chunk ++ ws)) = due rest ws := by
  rw [due, if_neg (by rw [List.length_append]; omega), List.drop_left' h]

theorem due_entry (rest : List Slot) {w : UInt32} (h : w ≠ 0) (ws : List UInt32) :
    due (.entries :: rest) (w :: ws) = due (.entries :: rest) ws := by
  rw [due, if_neg h]

theorem due_entry_zero (rest : List Slot) (ws : List UInt32) :
    due (.entries :: rest) (0 :: ws) = due (.file :: rest) ws := by
  rw [due, if_pos rfl]

theorem due_file_length (rest : List Slot) {n : UInt32} (h : n ≠ 0) :
    due (.file :: rest) [n] = some (.payload n) := by
  rw [due, if_neg h, if_pos (show [].length < n.toNat from toNat_pos h)]
  rfl

theorem due_file (rest : List Slot) {n : UInt32} {chunk : List UInt32} (hn : n ≠ 0)
    (h : chunk.length = n.toNat) (ws : List UInt32) :
    due (.file :: rest) (n :: (chunk ++ ws)) = due (.entries :: rest) ws := by
  rw [due, if_neg hn, if_neg (by rw [List.length_append]; omega), List.drop_left' h]

/-! ### Records of a file -/

namespace Writer

variable (o : ByteOrder) {ws : List UInt32} {n : ℕ}

theorem take_words (h : n ≤ ws.length) : (words o ws).take (4 * n) = words o (ws.take n) := by
  conv_lhs => rw [← List.take_append_drop n ws, words_append]
  exact List.take_left' (by rw [length_words, List.length_take_of_le h])

theorem drop_words (h : n ≤ ws.length) : (words o ws).drop (4 * n) = words o (ws.drop n) := by
  conv_lhs => rw [← List.take_append_drop n ws, words_append]
  exact List.drop_left' (by rw [length_words, List.length_take_of_le h])

end Writer

/-- A complete record stands at an offset of a file. -/
def RecordAt (o : ByteOrder) (bytes : List UInt8) (p : ℕ) (tag : Tag) (body : List UInt32) : Prop :=
  body.length < UInt32.size ∧ Writer.words o (Writer.recordWords tag body) <+: bytes.drop p

/-- An offset is reached from the end of the header by complete records with the given tags. -/
inductive Boundary (o : ByteOrder) (bytes : List UInt8) : List Tag → ℕ → Prop
  | start (header : 12 ≤ bytes.length) : Boundary o bytes [] 12
  | next {tags : List Tag} {p : ℕ} {tag : Tag} {body : List UInt32}
      (before : Boundary o bytes tags p) (record : RecordAt o bytes p tag body) :
      Boundary o bytes (tags ++ [tag]) (p + 8 + 4 * body.length)

/-- What stands at an offset of a file explains an error. -/
inductive Explains (o : ByteOrder) (fileType : FileType) (bytes : List UInt8) : Error → ℕ → Prop
  /-- A record begins with the tag. -/
  | tag {tags : List Tag} {p : ℕ} {tag : Tag} {reading : Expectation}
      (boundary : Boundary o bytes tags p) (header : Writer.word o tag.word <+: bytes.drop p) :
      Explains o fileType bytes (.unexpectedTag tag reading) p
  /-- Where a record should begin, there are too few bytes for a tag. -/
  | noTag {tags : List Tag} {p : ℕ} {reading : Expectation} (boundary : Boundary o bytes tags p)
      (short : bytes.length < p + 4) : Explains o fileType bytes (.unexpectedTag ⟨0⟩ reading) p
  /-- The words of a name begin, which up to the first zero byte are not UTF-8. -/
  | name {tags : List Tag} {q i : ℕ} {tag : Tag} {body : List UInt32} {n : UInt32}
      {fault : Utf8.Fault} (boundary : Boundary o bytes tags q)
      (record : RecordAt o bytes q tag body)
      (payload : due (slots fileType tag) (body.take i) = some (.payload n))
      (fits : i + n.toNat ≤ body.length)
      (invalid : Utf8.decode ((Writer.words o ((body.drop i).take n.toNat)).takeWhile (· ≠ 0)) =
        .error fault) :
      Explains o fileType bytes (.invalidUtf8 fault) (q + 8 + 4 * i)
  /-- A field is due that needs more words than the body has left. -/
  | field {tags : List Tag} {q i : ℕ} {tag : Tag} {body : List UInt32} {field : Field}
      (boundary : Boundary o bytes tags q) (record : RecordAt o bytes q tag body)
      (inside : i ≤ body.length) (field_due : due (slots fileType tag) (body.take i) = some field)
      (short : body.length < i + field.size) :
      Explains o fileType bytes .endOfFile (q + 8 + 4 * i)
  /-- A record should begin, and there are too few bytes for its tag. -/
  | tagWord {tags : List Tag} {p : ℕ} (boundary : Boundary o bytes tags p)
      (short : bytes.length < p + 4) : Explains o fileType bytes .endOfFile p
  /-- Behind the tag of a record there are too few bytes for its length. -/
  | lengthWord {tags : List Tag} {p : ℕ} (boundary : Boundary o bytes tags p)
      (tag : p + 4 ≤ bytes.length) (short : bytes.length < p + 8) :
      Explains o fileType bytes .endOfFile (p + 4)
  /-- Behind the header of a record there are too few bytes for its body. -/
  | body {tags : List Tag} {p : ℕ} {tag length : UInt32} (boundary : Boundary o bytes tags p)
      (header : Writer.words o [tag, length] <+: bytes.drop p)
      (short : bytes.length < p + 8 + 4 * length.toNat) :
      Explains o fileType bytes .endOfFile (p + 8)
  /-- A data file is at its end, and none of its records was an object summary. -/
  | noSummary {tags : List Tag} {p : ℕ} (data : fileType = .data)
      (boundary : Boundary o bytes tags p) (missing : Tag.objectSummary ∉ tags)
      (ends : bytes.drop p = [] ∨ bytes.drop p = Writer.word o 0) :
      Explains o fileType bytes .endOfFile p

section

variable {o : ByteOrder} {fileType : FileType} {bytes : List UInt8} {tags : List Tag} {p : ℕ}
  {tag : Tag} {body : List UInt32}

theorem RecordAt.le (h : RecordAt o bytes p tag body) : p + 8 + 4 * body.length ≤ bytes.length := by
  have hlength := h.2.length_le
  rw [Writer.length_words, Writer.recordWords, List.length_cons, List.length_cons,
    List.length_drop] at hlength
  omega

theorem Boundary.le (h : Boundary o bytes tags p) : p ≤ bytes.length := by
  cases h with
  | start header => exact header
  | next _ record => exact record.le

theorem Explains.le {e : Error} (h : Explains o fileType bytes e p) : p ≤ bytes.length := by
  cases h with
  | tag boundary _ => exact boundary.le
  | noTag boundary _ => exact boundary.le
  | name _ record _ fits _ => have := record.le; omega
  | field _ record inside _ _ => have := record.le; omega
  | tagWord boundary _ => exact boundary.le
  | lengthWord _ tag _ => exact tag
  | body _ header _ =>
    have hlength := header.length_le
    rw [Writer.length_words, List.length_drop] at hlength
    simp only [List.length_cons, List.length_nil] at hlength
    omega
  | noSummary _ boundary _ _ => exact boundary.le

/-- A failure is told of with one offset, which explains it. -/
def Told (o : ByteOrder) (fileType : FileType) (bytes : List UInt8) (e : Failure) : Prop :=
  ∃ p, e.trail = [.offset p] ∧ Explains o fileType bytes e.error p

theorem Explains.told {e : Error} (h : Explains o fileType bytes e p) :
    Told o fileType bytes (.atPosition p e) :=
  ⟨p, rfl, h⟩

/-! ### Inside a body -/

/-- A reader stands in the body of a record behind some of its words, and `next` tells which field
is due behind further words. -/
def Inside (o : ByteOrder) (fileType : FileType) (bytes : List UInt8)
    (next : List UInt32 → Option Field) (r : Reader) : Prop :=
  ∃ tags q tag body i, Boundary o bytes tags q ∧ RecordAt o bytes q tag body ∧ i ≤ body.length ∧
    r.order = o ∧ r.position = q + 8 + 4 * i ∧ r.unread = Writer.words o (body.drop i) ∧
    ∀ ws, due (slots fileType tag) (body.take i ++ ws) = next ws

variable {next : List UInt32 → Option Field} {r : Reader} {n : ℕ}

theorem Inside.order (h : Inside o fileType bytes next r) : r.order = o := by
  obtain ⟨_, _, _, _, _, -, -, -, horder, -⟩ := h
  exact horder

/-- Only whole words are left of a body. -/
theorem Inside.four_le (h : Inside o fileType bytes next r) (hr : r.isEmpty ≠ true) :
    4 ≤ r.remaining := by
  obtain ⟨_, _, _, body, i, -, -, -, -, -, hunread, -⟩ := h
  have hlength : r.remaining = 4 * (body.drop i).length := by
    rw [Reader.remaining, hunread, Writer.length_words]
  have hpos : 0 < r.remaining := by
    exact List.length_pos_of_ne_nil fun hempty => hr (List.isEmpty_iff.2 hempty)
  omega

/-- Words that are there can be passed. -/
theorem Inside.advance (h : Inside o fileType bytes next r) (hn : 4 * n ≤ r.remaining) :
    ∃ chunk, chunk.length = n ∧ r.unread.take (4 * n) = Writer.words o chunk ∧
      Inside o fileType bytes (fun ws => next (chunk ++ ws)) (r.skip (4 * n)) := by
  obtain ⟨tags, q, tag, body, i, hboundary, hrecord, hi, horder, hposition, hunread, hnext⟩ := h
  rw [Reader.remaining, hunread, Writer.length_words] at hn
  have hfits : n ≤ (body.drop i).length := by omega
  refine ⟨(body.drop i).take n, List.length_take_of_le hfits, ?_, tags, q, tag, body, i + n,
    hboundary, hrecord, ?_, horder, ?_, ?_, fun ws => ?_⟩
  · rw [hunread, Writer.take_words o hfits]
  · rw [List.length_drop] at hfits
    omega
  · rw [Reader.skip, hposition, Nat.mul_add, ← Nat.add_assoc]
  · rw [Reader.skip, hunread, Writer.drop_words o hfits, List.drop_drop]
  · rw [List.take_add, List.append_assoc, hnext]

/-- A field that does not fit explains that the body ends too early. -/
theorem Inside.short {field : Field} (h : Inside o fileType bytes next r)
    (hnext : next [] = some field) (hshort : r.remaining < 4 * field.size) :
    Told o fileType bytes (.atPosition r.position .endOfFile) := by
  obtain ⟨tags, q, tag, body, i, hboundary, hrecord, hi, -, hposition, hunread, hdue⟩ := h
  rw [Reader.remaining, hunread, Writer.length_words, List.length_drop] at hshort
  have hfield := hdue []
  rw [List.append_nil, hnext] at hfield
  rw [hposition]
  exact (Explains.field hboundary hrecord hi hfield (by omega)).told

/-- The words of a name explain that it is not UTF-8. -/
theorem Inside.invalid {length : UInt32} {fault : Utf8.Fault} (h : Inside o fileType bytes next r)
    (hnext : next [] = some (.payload length)) (hlength : 4 * length.toNat ≤ r.remaining)
    (hfault : Utf8.decode ((r.unread.take (4 * length.toNat)).takeWhile (· ≠ 0)) = .error fault) :
    Told o fileType bytes (.atPosition r.position (.invalidUtf8 fault)) := by
  obtain ⟨tags, q, tag, body, i, hboundary, hrecord, hi, -, hposition, hunread, hdue⟩ := h
  rw [Reader.remaining, hunread, Writer.length_words] at hlength
  have hfits : length.toNat ≤ (body.drop i).length := by omega
  rw [hunread, Writer.take_words o hfits] at hfault
  have hpayload := hdue []
  rw [List.append_nil, hnext] at hpayload
  rw [List.length_drop] at hfits
  rw [hposition]
  exact (Explains.name hboundary hrecord hpayload (by omega) hfault).told

/-! ### Fields -/

theorem Inside.of_word {w : UInt32} {r' : Reader} (hr : Inside o fileType bytes next r)
    (h : Decoder.word r = .ok w r') : Inside o fileType bytes (fun ws => next (w :: ws)) r' := by
  obtain ⟨rest, hunread, rfl⟩ := Reader.word_eq_ok h
  have hlength := congrArg List.length hunread
  rw [List.length_append, Writer.length_word] at hlength
  obtain ⟨chunk, hchunk, htake, hinside⟩ := hr.advance (n := 1) (by rw [Reader.remaining]; omega)
  obtain ⟨v, rfl⟩ := List.length_eq_one_iff.1 hchunk
  rw [hr.order] at hunread
  rw [Nat.mul_one, hunread, List.take_left' (Writer.length_word ..), Writer.words_singleton]
    at htake
  obtain rfl := Writer.word_injective o htake
  rwa [Nat.mul_one, Reader.skip, hunread, List.drop_left' (Writer.length_word ..)] at hinside

/-- A word that is due is read, or the failure is explained. -/
theorem Inside.word (hnext : next [] = some .word) :
    EndsIn (Inside o fileType bytes next) Decoder.word
      (fun w => Inside o fileType bytes fun ws => next (w :: ws))
      fun e _ => Told o fileType bytes e where
  value r hr w r' h := hr.of_word h
  failure r hr e r' h := by
    obtain ⟨hshort, rfl, rfl⟩ := Decoder.word_eq_error_iff.1 h
    exact hr.short hnext hshort

/-- A word that is there is read. -/
theorem Inside.word_of_le (k : ℕ) :
    EndsIn (fun r => Inside o fileType bytes next r ∧ k + 4 ≤ r.remaining) Decoder.word
      (fun w r => Inside o fileType bytes (fun ws => next (w :: ws)) r ∧ k ≤ r.remaining)
      fun e _ => Told o fileType bytes e where
  value r hr w r' h := by
    have hle := hr.2
    have hremaining := Decoder.remaining_word h
    exact ⟨hr.1.of_word h, by omega⟩
  failure r hr e r' h := by
    have hle := hr.2
    obtain ⟨hshort, -, -⟩ := Decoder.word_eq_error_iff.1 h
    omega

/-- Bytes that should be there are taken, or the failure is explained. -/
theorem Inside.take (hr : Inside o fileType bytes next r) {field : Field}
    (hnext : next [] = some field) :
    EndsIn (· = r) (Decoder.take (4 * field.size))
      (fun taken r' => 4 * field.size ≤ r.remaining ∧ taken = r.unread.take (4 * field.size) ∧
        r' = r.skip (4 * field.size))
      fun e _ => Told o fileType bytes e where
  value _ hs taken r' h := by
    rw [hs, Decoder.take_eq_skip] at h
    split at h
    · next hle =>
      cases h
      exact ⟨hle, rfl, rfl⟩
    · cases h
  failure _ hs e r' h := by
    rw [hs, Decoder.take_eq_skip] at h
    split at h
    · cases h
    · next hle =>
      cases h
      exact hr.short hnext (Nat.lt_of_not_le hle)

/-- A name is read that is absent or has as many words as its length tells. -/
theorem Inside.string (hlength : next [] = some .word)
    (hpayload : ∀ n, n ≠ 0 → next [n] = some (.payload n)) :
    EndsIn (Inside o fileType bytes next) Decoder.string
      (fun name r => ∃ n chunk, chunk.length = n.toNat ∧ (name = none ↔ n = 0) ∧
        Inside o fileType bytes (fun ws => next (n :: (chunk ++ ws))) r)
      fun e _ => Told o fileType bytes e := by
  refine (Inside.word hlength).bind fun n => ?_
  split
  · next hn => exact endsIn_pure fun r hr => ⟨n, [], by rw [hn]; rfl, by simp [hn], hr⟩
  · next hn =>
    refine endsIn_get_bind fun r hr => (hr.take (hpayload n hn)).bind fun taken => ?_
    split
    · refine endsIn_pure ?_
      rintro _ ⟨hle, -, rfl⟩
      obtain ⟨chunk, hchunk, -, hinside⟩ := hr.advance hle
      exact ⟨n, chunk, hchunk, by simp [hn], hinside⟩
    · next hfault =>
      refine endsIn_throw ?_
      rintro _ ⟨hle, rfl, -⟩
      exact hr.invalid (hpayload n hn) hle hfault

theorem Inside.word_slot (rest : List Slot) :
    EndsIn (Inside o fileType bytes (due (.word :: rest))) Decoder.word
      (fun _ => Inside o fileType bytes (due rest)) fun e _ => Told o fileType bytes e :=
  (Inside.word (due_nil .word _ nofun nofun)).weaken (fun _ => id)
    (fun w r hr => by simpa only [due_word] using hr) fun _ _ => id

theorem Inside.name_slot (rest : List Slot) :
    EndsIn (Inside o fileType bytes (due (.name :: rest))) Decoder.string
      (fun _ => Inside o fileType bytes (due rest)) fun e _ => Told o fileType bytes e := by
  refine (Inside.string (due_nil .name _ nofun nofun) fun n => due_name_length rest).weaken
    (fun _ => id) ?_ fun _ _ => id
  rintro name r ⟨n, chunk, hchunk, -, hr⟩
  simpa only [due_name rest hchunk] using hr

/-- Behind a zero stands the file of further entries, or the entries end. -/
theorem Inside.file_slot (rest : List Slot) :
    EndsIn (Inside o fileType bytes (due (.file :: rest))) Decoder.string
      (fun name r => name ≠ none → Inside o fileType bytes (due (.entries :: rest)) r)
      fun e _ => Told o fileType bytes e := by
  refine (Inside.string (due_nil .file _ nofun nofun) fun n => due_file_length rest).weaken
    (fun _ => id) ?_ fun _ _ => id
  rintro name r ⟨n, chunk, hchunk, hname, hr⟩ hsome
  simpa only [due_file rest (mt hname.2 hsome) hchunk] using hr

/-! ### Bodies -/

theorem Inside.long_slot (rest : List Slot) :
    EndsIn (Inside o fileType bytes (due (.word :: .word :: rest))) Decoder.long
      (fun _ => Inside o fileType bytes (due rest)) fun e _ => Told o fileType bytes e :=
  (Inside.word_slot _).bind fun _ => (Inside.word_slot _).map fun _ _ => id

/-- What every repeated step keeps is kept until the body ends. -/
theorem EndsIn.untilEmpty {α : Type} {p : Decoder α} {h : Decoder.Consumes p} {I : Reader → Prop}
    {K : Failure → Reader → Prop} (hp : EndsIn (fun r => I r ∧ r.isEmpty ≠ true) p (fun _ => I) K) :
    EndsIn I (Decoder.untilEmpty p h) (fun _ => I) K := by
  refine EndsIn.repeatWhile (I := fun _ => I) (L := fun _ => I) (fun _ _ => ?_) none
  refine endsIn_get_bind fun r hr => ?_
  split
  · exact endsIn_pure fun _ h => h ▸ hr
  · next hempty =>
    refine EndsIn.map (hp.weaken ?_ (fun _ _ => id) fun _ _ => id) fun _ _ => id
    rintro _ rfl
    exact ⟨hr, hempty⟩

theorem diagnosed_blocks : EndsIn (Inside o fileType bytes (due [.words])) NotesDecoder.blocks
    (fun _ _ => True) fun e _ => Told o fileType bytes e := by
  have hnext : due [.words] = fun _ => none := funext (due_words [])
  rw [hnext]
  refine EndsIn.weaken (EndsIn.untilEmpty ?_) (fun _ => id) (fun _ _ _ => trivial) fun _ _ => id
  exact (Inside.word_of_le 0).weaken (fun _ h => ⟨h.1, h.1.four_le h.2⟩) (fun _ _ => And.left)
    fun _ _ => id

theorem diagnosed_arcs : EndsIn (Inside o fileType bytes (due [.word, .pairs])) NotesDecoder.arcs
    (fun _ _ => True) fun e _ => Told o fileType bytes e := by
  refine (Inside.word_slot _).bind fun source => EndsIn.map (EndsIn.untilEmpty ?_)
    fun _ _ _ => trivial
  refine EndsIn.bind ((Inside.word_of_le 0).weaken (fun _ h => ⟨h.1, h.1.four_le h.2⟩)
    (fun _ _ => And.left) fun _ _ => id) fun target => ?_
  refine (Inside.word (due_second [] target)).map fun flags r hr => ?_
  have hnext : (fun ws => due [.pairs] (target :: flags :: ws)) = due [.pairs] :=
    funext (due_pair [] target flags)
  exact hnext ▸ hr

theorem diagnosed_functionKey : EndsIn (Inside o fileType bytes (due [.word, .word]))
    Decoder.functionKey (fun _ _ => True) fun e _ => Told o fileType bytes e :=
  (Inside.word_slot _).bind fun _ => (Inside.word_slot _).map fun _ _ _ => trivial

theorem diagnosed_summary : EndsIn (Inside o fileType bytes (due (List.replicate 9 .word)))
    Decoder.summary (fun _ _ => True) fun e _ => Told o fileType bytes e :=
  (Inside.word_slot _).bind fun _ => (Inside.word_slot _).bind fun _ =>
    (Inside.word_slot _).bind fun _ => (Inside.long_slot _).bind fun _ =>
    (Inside.long_slot _).bind fun _ => (Inside.long_slot _).map fun _ _ _ => trivial

theorem diagnosed_counts : EndsIn (Inside o fileType bytes (due [.words])) Decoder.counts
    (fun _ _ => True) fun e _ => Told o fileType bytes e := by
  have hnext : due [.words] = fun _ => none := funext (due_words [])
  rw [hnext]
  refine EndsIn.repeatWhile (I := fun _ => Inside o fileType bytes fun _ => none)
    (L := fun _ _ => True) (fun _ _ => endsIn_get_bind fun r hr => ?_) none
  have hlong : EndsIn (fun r => Inside o fileType bytes (fun _ => none) r ∧ 8 ≤ r.remaining)
      Decoder.long (fun _ => Inside o fileType bytes fun _ => none)
      fun e _ => Told o fileType bytes e :=
    (Inside.word_of_le 4).bind fun _ => (Inside.word_of_le 0).map fun _ _ => And.left
  split
  · exact endsIn_pure fun _ _ => trivial
  · next hle =>
    refine EndsIn.map (hlong.weaken ?_ (fun _ _ => id) fun _ _ => id) fun _ _ => id
    rintro _ rfl
    exact ⟨hr, Nat.le_of_not_lt hle⟩

theorem diagnosed_announcement :
    EndsIn (fun s => Inside o fileType bytes (due [.word, .word, .name, .name, .word]) s.reader)
      NotesDecoder.announcement (fun _ _ => True) fun e _ => Told o fileType bytes e := by
  refine (NotesDecoder.endsIn_reading (Inside.word_slot _)).bind fun ident => ?_
  refine (NotesDecoder.endsIn_reading (Inside.word_slot _)).bind fun checksum => ?_
  refine (NotesDecoder.endsIn_reading (Inside.name_slot _)).bind fun name => ?_
  refine EndsIn.bind (J := fun _ s => Inside o fileType bytes (due [.word]) s.reader) ?_
    fun source => (NotesDecoder.endsIn_reading (Inside.word_slot _)).map fun _ _ _ => trivial
  refine (NotesDecoder.endsIn_reading (Inside.name_slot _)).bind fun source => ?_
  split
  · exact NotesDecoder.endsIn_intern _
  · exact endsIn_pure fun _ => id

theorem diagnosed_lines :
    EndsIn (fun s => Inside o fileType bytes (due [.word, .entries]) s.reader) NotesDecoder.lines
      (fun _ _ => True) fun e _ => Told o fileType bytes e := by
  refine (NotesDecoder.endsIn_reading (Inside.word_slot _)).bind fun block =>
    EndsIn.map (J := fun _ _ => True) ?_ fun _ _ _ => trivial
  refine EndsIn.repeatWhile (L := fun _ _ => True)
    (I := fun _ s => Inside o fileType bytes (due [.entries]) (NotesState.reader s))
    (fun _ _ => ?_) none
  refine (NotesDecoder.endsIn_reading
    (Inside.word (due_nil .entries _ nofun nofun))).bind fun number => ?_
  split
  · next hnumber =>
    have hnext : (fun ws => due [.entries] (number :: ws)) = due [.entries] :=
      funext (due_entry [] hnumber)
    rw [hnext]
    exact endsIn_pure fun _ => id
  · next hnumber =>
    obtain rfl := not_not.1 hnumber
    have hnext : (fun ws => due [.entries] (0 :: ws)) = due [.file] := funext (due_entry_zero [])
    rw [hnext]
    refine (NotesDecoder.endsIn_reading (Inside.file_slot _)).bind fun name => ?_
    cases name with
    | none => exact endsIn_pure fun _ _ => trivial
    | some name =>
      have hpooled : EndsIn (fun s => Inside o fileType bytes (due [.entries]) s.reader)
          (NotesDecoder.intern name >>= fun x => pure (some (Line.file x)))
          (fun o? s => o?.elim True fun _ => Inside o fileType bytes (due [.entries]) s.reader)
          fun e _ => Told o fileType bytes e := (NotesDecoder.endsIn_intern name).map fun _ _ => id
      exact hpooled.weaken (fun s hs => hs (by simp)) (fun _ _ => id) fun _ _ => id

/-! ### Records from boundary to boundary -/

/-- A reader stands where records with the given tags end. -/
structure Stands (o : ByteOrder) (bytes : List UInt8) (tags : List Tag) (r : Reader) : Prop where
  order : r.order = o
  boundary : Boundary o bytes tags r.position
  unread : r.unread = bytes.drop r.position

theorem stands_ofBytes (h : Reader.ofBytes bytes = .ok r) : Stands r.order bytes [] r where
  order := rfl
  boundary := by
    rw [Reader.position_ofBytes h]
    refine .start ?_
    rw [Reader.eq_header_append_unread h]
    simp only [Writer.header, List.length_append, Writer.length_word]
    omega
  unread := by rw [Reader.position_ofBytes h, Reader.unread_ofBytes h]

theorem Stands.remaining_eq (h : Stands o bytes tags r) :
    r.remaining = bytes.length - r.position := by
  rw [Reader.remaining, h.unread, List.length_drop]

/-- A complete record is read, or the failure is explained. -/
theorem Stands.record (hr : Stands o bytes tags r) : EndsIn (· = r) Decoder.record
    (fun found r' => Stands o bytes (tags ++ [found.1]) r' ∧
      Inside o fileType bytes (due (slots fileType found.1)) found.2 ∧
      Writer.word o found.1.word <+: bytes.drop r.position)
    fun e _ => Told o fileType bytes e where
  value s hs found r' h := by
    obtain ⟨tag, body⟩ := found
    rw [hs] at h
    obtain ⟨ws, rest, hlength, hunread, rfl, rfl⟩ := Decoder.exists_words_of_record h
    rw [hr.order, hr.unread] at hunread
    have hrecord : RecordAt o bytes r.position tag ws := ⟨hlength, rest, hunread.symm⟩
    have hend : Boundary o bytes (tags ++ [tag]) (r.position + 8 + 4 * ws.length) :=
      hr.boundary.next hrecord
    refine ⟨⟨hr.order, ?_, ?_⟩, ⟨tags, r.position, tag, ws, 0, hr.boundary, hrecord, Nat.zero_le _,
      hr.order, rfl, by rw [hr.order]; rfl, fun _ => rfl⟩, ?_⟩
    · rwa [Nat.add_assoc] at hend
    · rw [Reader.skip, hr.unread, List.drop_drop]
    · rw [hunread, Writer.recordWords, Writer.words_cons, List.append_assoc]
      exact List.prefix_append _ _
  failure s hs e r' h := by
    have hle := hr.boundary.le
    have hremaining := hr.remaining_eq
    rw [hs] at h
    obtain ⟨hshort, rfl⟩ | ⟨htag, hshort, rfl⟩ | ⟨tag, length, hheader, hshort, rfl⟩ :=
      Decoder.record_eq_error h
    · exact (Explains.tagWord hr.boundary (by omega)).told
    · exact (Explains.lengthWord hr.boundary (by omega) (by omega)).told
    · rw [hr.order, hr.unread] at hheader
      exact (Explains.body hr.boundary hheader (by omega)).told

theorem diagnosed_recordWithTag (tag : Tag) (reading : Expectation) :
    EndsIn (Stands o bytes tags) (Decoder.recordWithTag tag reading)
      (fun body r => Stands o bytes (tags ++ [tag]) r ∧
        Inside o fileType bytes (due (slots fileType tag)) body)
      fun e _ => Told o fileType bytes e := by
  refine endsIn_get_bind fun r hr => hr.record.bind fun found => EndsIn.assume ?_
  rintro ⟨hinside, hheader⟩
  split
  split
  · next htag =>
    rw [← htag]
    exact endsIn_pure fun _ hr => ⟨hr, hinside⟩
  · exact endsIn_throw fun _ _ => (Explains.tag hr.boundary hheader).told

section

variable {α : Type} {I : Reader → Prop} {body : Reader}

theorem Inside.within {p : Decoder α} (hbody : Inside o fileType bytes next body)
    (hp : EndsIn (Inside o fileType bytes next) p (fun _ _ => True)
      fun e _ => Told o fileType bytes e) :
    EndsIn I (Decoder.within body p) (fun _ => I) fun e _ => Told o fileType bytes e := by
  refine EndsIn.weaken (Decoder.endsIn_within (hp.weaken ?_ (fun _ _ => id) fun _ _ => id))
    (fun _ => id) (fun _ _ => And.right) fun _ _ => And.left
  rintro _ rfl
  exact hbody

theorem Inside.within_notes {p : NotesDecoder α} (hbody : Inside o fileType bytes next body)
    (hp : EndsIn (fun s => Inside o fileType bytes next (NotesState.reader s)) p (fun _ _ => True)
      fun e _ => Told o fileType bytes e) :
    EndsIn (fun s => I (NotesState.reader s)) (NotesDecoder.within body p) (fun _ s => I s.reader)
      fun e _ => Told o fileType bytes e := by
  refine EndsIn.weaken (NotesDecoder.endsIn_within (hp.weaken ?_ (fun _ _ => id) fun _ _ => id))
    (fun _ => id) (fun _ _ => And.right) fun _ _ => And.left
  rintro _ rfl
  exact hbody

end

/-! ### Data files -/

/-- Units were read from the records of a file, and each object summary among the records is one of
them. -/
def UnitsRead (o : ByteOrder) (bytes : List UInt8) (units : List DataUnit) (r : Reader) : Prop :=
  ∃ tags, Stands o bytes tags r ∧
    (Tag.objectSummary ∈ tags → units.filterMap DataUnit.object? ≠ [])

theorem diagnosed_dataUnit (units : List DataUnit) (previous : Option DataUnit) :
    EndsIn (UnitsRead o bytes units) (Decoder.dataUnit previous)
      (fun u? r => u?.elim (UnitsRead o bytes units r ∧ r.isFinished = true)
        fun u => UnitsRead o bytes (units ++ [u]) r)
      fun e _ => Told o .data bytes e := by
  refine endsIn_get_bind fun r hr => ?_
  obtain ⟨tags, hstands, hobject⟩ := id hr
  dsimp only
  split
  · next hend =>
    refine endsIn_pure ?_
    rintro _ rfl
    exact ⟨hr, hend⟩
  refine hstands.record.bind fun found => EndsIn.assume ?_
  obtain ⟨tag, body⟩ := found
  rintro ⟨hinside, hheader⟩
  dsimp only at hinside hheader ⊢
  split
  · next htag =>
    subst htag
    refine (hinside.within diagnosed_functionKey).bind fun key => ?_
    refine (diagnosed_recordWithTag _ _).bind fun countsBody => EndsIn.assume fun hcounts => ?_
    refine (hcounts.within diagnosed_counts).map fun counts r' hr' => ⟨_, hr', fun hmem => ?_⟩
    have htags : Tag.objectSummary ∈ tags := by
      simpa only [List.mem_append, List.mem_singleton, (by decide : Tag.objectSummary ≠ .function),
        (by decide : Tag.objectSummary ≠ .arcCounts), or_false] using hmem
    simpa [DataUnit.object?] using hobject htags
  split
  · next htag =>
    subst htag
    refine (hinside.within diagnosed_summary).map fun summary r' hr' => ⟨_, hr', fun _ => ?_⟩
    simp [DataUnit.object?]
  split
  · next htag =>
    obtain ⟨rfl, -⟩ := htag
    refine (hinside.within diagnosed_summary).map fun summary r' hr' => ⟨_, hr', fun hmem => ?_⟩
    have htags : Tag.objectSummary ∈ tags := by
      simpa only [List.mem_append, List.mem_singleton,
        (by decide : Tag.objectSummary ≠ .programSummary), or_false] using hmem
    simpa [DataUnit.object?] using hobject htags
  · exact endsIn_throw fun _ _ => (Explains.tag hstands.boundary hheader).told

/-- At the end of a file nothing is left, or a word of zeros. -/
theorem Stands.ends (h : Stands o bytes tags r) (hend : r.isFinished = true) :
    bytes.drop r.position = [] ∨ bytes.drop r.position = Writer.word o 0 := by
  rw [← h.unread, ← h.order]
  rw [Reader.isFinished] at hend
  split at hend
  · next hunread => exact .inl hunread
  · next a b c d hunread =>
    rw [beq_iff_eq] at hend
    exact .inr (by rw [hunread, ← hend, Writer.word, ByteOrder.bytes_word])
  · cases hend

theorem diagnosed_dataFile (hr : Stands o bytes [] r) (htype : r.fileType = .data) :
    EndsIn (· = r) Decoder.dataFile (fun _ _ => True) fun e _ => Told o .data bytes e := by
  refine endsIn_get_bind fun s hs => ?_
  subst hs
  dsimp only
  split
  · next hother => exact absurd htype hother
  have hbegin : UnitsRead o bytes [] s := ⟨[], hr, fun h => absurd h List.not_mem_nil⟩
  refine EndsIn.bind ((EndsIn.repeatWhile diagnosed_dataUnit none).weaken
    (by rintro _ rfl; exact hbegin) (fun _ _ => id) fun _ _ => id) fun units => ?_
  split
  · next hempty =>
    refine endsIn_get_bind fun t ht => endsIn_throw_bind fun _ _ => ?_
    obtain ⟨⟨tags, hstands, hobject⟩, hend⟩ := ht
    have hmissing : Tag.objectSummary ∉ tags := fun hmem =>
      hobject hmem (List.isEmpty_iff.1 hempty)
    exact (Explains.noSummary rfl hstands.boundary hmissing (hstands.ends hend)).told
  · exact endsIn_pure fun _ _ => trivial

/-! ### Notes files -/

/-- A reader stands where a record begins or the file ends. -/
def AtBoundary (o : ByteOrder) (bytes : List UInt8) (r : Reader) : Prop :=
  ∃ tags, Stands o bytes tags r

/-- The next tag stands at a boundary, or there are too few bytes for one. -/
theorem Stands.nextTag (h : Stands o bytes tags r) :
    (r.nextTag = none → bytes.length < r.position + 4) ∧
      ∀ tag, r.nextTag = some tag → Writer.word o tag.word <+: bytes.drop r.position := by
  have hremaining := h.remaining_eq
  rw [Reader.nextTag, ← h.unread]
  split
  · next a b c d rest hunread =>
    refine ⟨by rintro ⟨⟩, ?_⟩
    rintro _ ⟨⟩
    rw [Writer.word, ← h.order, ByteOrder.bytes_word, hunread]
    exact ⟨rest, rfl⟩
  · next hnone =>
    refine ⟨fun _ => ?_, by rintro _ ⟨⟩⟩
    by_contra hlong
    obtain ⟨a, b, c, d, rest, hunread⟩ :=
      exists_cons_of_four_le (show 4 ≤ r.remaining by omega)
    exact hnone a b c d rest hunread

theorem eq_of_word_prefix {tag' : Tag} {l : List UInt8} (h : Writer.word o tag.word <+: l)
    (h' : Writer.word o tag'.word <+: l) : tag = tag' := by
  have hsize : (Writer.word o tag.word).length = (Writer.word o tag'.word).length := by
    rw [Writer.length_word, Writer.length_word]
  have hle := List.prefix_of_prefix_length_le h h' hsize.le
  exact congrArg Tag.mk (Writer.word_injective o (hle.eq_of_length hsize))

theorem told_failAt {α : Type} {I : NotesState → Prop} {J : α → NotesState → Prop} {e : Error}
    (h : Told o fileType bytes (.atPosition p e)) :
    EndsIn I (NotesDecoder.reading (Decoder.failAt p e)) J fun e _ => Told o fileType bytes e where
  value _ _ _ _ hvalue := by cases hvalue
  failure _ _ _ _ hfailure := by
    cases hfailure
    exact h

theorem diagnosed_segment :
    EndsIn (fun s => AtBoundary o bytes (NotesState.reader s)) NotesDecoder.segment
      (fun _ s => AtBoundary o bytes s.reader) fun e _ => Told o .notes bytes e := by
  refine endsIn_get_bind fun s hs => ?_
  obtain ⟨tags, hstands⟩ := id hs
  obtain ⟨hnone, hsome⟩ := hstands.nextTag
  dsimp only
  split
  · exact endsIn_pure fun t ht => ht ▸ hs
  split
  · next htag => exact told_failAt (Explains.noTag hstands.boundary (hnone htag)).told
  next tag htag =>
  have hheader := hsome tag htag
  have hrecord : EndsIn (· = s) (NotesDecoder.reading Decoder.record)
      (fun found t => AtBoundary o bytes t.reader ∧
        Inside o .notes bytes (due (slots .notes tag)) found.2)
      fun e _ => Told o .notes bytes e :=
    (NotesDecoder.endsIn_reading hstands.record).weaken (by rintro _ rfl; rfl)
      (fun _ _ h => ⟨⟨_, h.1⟩, eq_of_word_prefix h.2.2 hheader ▸ h.2.1⟩) fun _ _ => id
  split
  · exact endsIn_pure fun t ht => ht ▸ hs
  split
  · next harcs =>
    subst harcs
    refine hrecord.bind fun found => EndsIn.assume fun hinside => ?_
    exact (NotesDecoder.endsIn_reading (hinside.within diagnosed_arcs)).map fun _ _ => id
  split
  · next hlines =>
    subst hlines
    refine hrecord.bind fun found => EndsIn.assume fun hinside => ?_
    exact (hinside.within_notes diagnosed_lines).map fun _ _ => id
  · exact told_failAt (Explains.tag hstands.boundary hheader).told

theorem diagnosed_repeated {α : Type} {step : Option α → NotesDecoder (Option α)}
    {h : ∀ previous, Yields NotesState.remaining (step previous)}
    (hstep : ∀ previous, EndsIn (fun s => AtBoundary o bytes (NotesState.reader s)) (step previous)
      (fun _ s => AtBoundary o bytes s.reader) fun e _ => Told o fileType bytes e) :
    EndsIn (fun s => AtBoundary o bytes (NotesState.reader s))
      (repeatWhile NotesState.remaining step h none) (fun _ s => AtBoundary o bytes s.reader)
      fun e _ => Told o fileType bytes e :=
  EndsIn.repeatWhile (I := fun _ s => AtBoundary o bytes (NotesState.reader s))
    (L := fun _ s => AtBoundary o bytes s.reader)
    (fun _ previous => (hstep previous).weaken (fun _ => id)
      (fun u? _ hs => by cases u? <;> exact hs) fun _ _ => id) none

theorem diagnosed_functionGroup :
    EndsIn (fun s => AtBoundary o bytes (NotesState.reader s)) NotesDecoder.functionGroup
      (fun _ s => AtBoundary o bytes s.reader) fun e _ => Told o .notes bytes e := by
  have hrecord (tag : Tag) (reading : Expectation) :
      EndsIn (AtBoundary o bytes) (Decoder.recordWithTag tag reading)
        (fun body r => AtBoundary o bytes r ∧ Inside o .notes bytes (due (slots .notes tag)) body)
        fun e _ => Told o .notes bytes e :=
    endsIn_exists fun tags => (diagnosed_recordWithTag tag reading).weaken (fun _ => id)
      (fun _ _ h => ⟨⟨_, h.1⟩, h.2⟩) fun _ _ => id
  refine (NotesDecoder.endsIn_reading (hrecord _ _)).bind fun body =>
    EndsIn.assume fun hinside => ?_
  refine (hinside.within_notes diagnosed_announcement).bind fun announcement => ?_
  refine (NotesDecoder.endsIn_reading (hrecord _ _)).bind fun body =>
    EndsIn.assume fun hinside => ?_
  refine (NotesDecoder.endsIn_reading (hinside.within diagnosed_blocks)).bind fun blocks => ?_
  exact EndsIn.map (diagnosed_repeated fun _ => diagnosed_segment) fun _ _ => id

theorem diagnosed_nextFunction :
    EndsIn (fun s => AtBoundary o bytes (NotesState.reader s)) NotesDecoder.nextFunction
      (fun _ s => AtBoundary o bytes s.reader) fun e _ => Told o .notes bytes e := by
  refine endsIn_get.bind fun s => ?_
  split
  · exact endsIn_pure fun _ => id
  · exact diagnosed_functionGroup.map fun _ _ => id

theorem diagnosed_notesFile {s : NotesState} (hs : AtBoundary o bytes s.reader)
    (htype : s.reader.fileType = .notes) :
    EndsIn (· = s) NotesDecoder.notesFile (fun _ _ => True) fun e _ => Told o .notes bytes e := by
  refine endsIn_get_bind fun t ht => ?_
  subst ht
  dsimp only
  split
  · next hother => exact absurd htype hother
  · exact EndsIn.map ((diagnosed_repeated fun _ => diagnosed_nextFunction).weaken
      (by rintro _ rfl; exact hs) (fun _ _ => id) fun _ _ => id) fun _ _ _ => trivial

end

/-! ### Files -/

/-- The places that are told of when a step ends. -/
def told {σ α : Type} : EStateM.Result Failure σ α → List Place
  | .ok _ _ => []
  | .error e _ => e.trail

/-- A file that is read is not told of. Warnings about the place of an error stand in the trail of a
failure and nowhere else, so this part holds of every computation: a success has none to tell. A
file that fails is told of once, with an offset of the file that explains the error. -/
structure Diagnosed {σ α : Type} (o : ByteOrder) (fileType : FileType) (bytes : List UInt8)
    (result : EStateM.Result Failure σ α) : Prop where
  success : ∀ a s, result = .ok a s → told result = []
  failure : ∀ e s, result = .error e s → ∃ p, told result = [.offset p] ∧ p ≤ bytes.length ∧
    Explains o fileType bytes e.error p

theorem EndsIn.diagnosed {σ α : Type} {o : ByteOrder} {fileType : FileType} {bytes : List UInt8}
    {s : σ} {p : EStateM Failure σ α}
    (h : EndsIn (· = s) p (fun _ _ => True) fun e _ => Told o fileType bytes e) :
    Diagnosed o fileType bytes (p s) where
  success a t ht := by
    rw [ht]
    rfl
  failure e t ht := by
    obtain ⟨q, htrail, hexplains⟩ := h.failure s rfl e t ht
    rw [ht]
    exact ⟨q, htrail, hexplains.le, hexplains⟩

/-- What is told of a notes file whose first function fails. -/
theorem told_notesFile_of_error {s t : NotesState} {e : Failure}
    (htype : s.reader.fileType = .notes) (h : NotesDecoder.nextFunction s = .error e t) :
    told (NotesDecoder.notesFile s) = e.trail := by
  rw [NotesDecoder.notesFile, run_get_bind]
  dsimp only
  rw [if_neg (not_not_intro htype)]
  refine (congrArg told (run_bind _ _ _)).trans ?_
  rw [repeatWhile_eq_error h]
  rfl

/-- What is told of a data file whose first unit fails. -/
theorem told_dataFile_of_error {r t : Reader} {e : Failure} (htype : r.fileType = .data)
    (h : Decoder.dataUnit none r = .error e t) : told (Decoder.dataFile r) = e.trail := by
  rw [Decoder.dataFile, run_get_bind]
  dsimp only
  rw [if_neg (not_not_intro htype)]
  refine (congrArg told (run_bind _ _ _)).trans ?_
  rw [repeatWhile_eq_error h]
  rfl

/-- Whatever the bytes of a file are, reading it is diagnosed truthfully. -/
theorem diagnosis_truthful {bytes : List UInt8} {r : Reader} (h : Reader.ofBytes bytes = .ok r) :
    (r.fileType = .notes → ∀ symbols,
      Diagnosed r.order .notes bytes (NotesDecoder.notesFile ⟨r, symbols⟩)) ∧
    (r.fileType = .data → Diagnosed r.order .data bytes (Decoder.dataFile r)) :=
  ⟨fun htype symbols =>
      (diagnosed_notesFile (s := ⟨r, symbols⟩) ⟨[], stands_ofBytes h⟩ htype).diagnosed,
    fun htype => (diagnosed_dataFile (stands_ofBytes h) htype).diagnosed⟩

/-- The announcement of a function whose name is a byte that stands in no text. -/
def sampleBadName : List UInt32 :=
  Writer.recordWords .function [7, 9, 1, 0xff]

/-- A record with the identifier of a function and without its checksum. -/
def sampleCutKey : List UInt32 :=
  Writer.recordWords .function [7]

/-- The name is told of where its bytes stand, and the checksum where the record ends. -/
theorem diagnosis_truthful_body :
    (∃ bytes r, bytes = Writer.header .little .notes ⟨7⟩ 5 ++ Writer.words .little sampleBadName ∧
      Reader.ofBytes bytes = .ok r ∧
      Diagnosed .little .notes bytes (NotesDecoder.notesFile ⟨r, .empty⟩) ∧
      told (NotesDecoder.notesFile ⟨r, .empty⟩) = [.offset 32]) ∧
    ∃ bytes r, bytes = Writer.header .little .data ⟨7⟩ 5 ++ Writer.words .little sampleCutKey ∧
      Reader.ofBytes bytes = .ok r ∧ Diagnosed .little .data bytes (Decoder.dataFile r) ∧
      told (Decoder.dataFile r) = [.offset 24] := by
  constructor
  · have hread := Reader.ofBytes_header .little .notes ⟨7⟩ 5 (Writer.words .little sampleBadName)
    refine ⟨_, _, rfl, hread, (diagnosis_truthful hread).1 rfl .empty, ?_⟩
    obtain ⟨e, s, hstep, htrail⟩ : ∃ e s, NotesDecoder.nextFunction
        ⟨⟨.notes, .little, ⟨7⟩, 5, 12, Writer.words .little sampleBadName⟩, .empty⟩ = .error e s ∧
          e.trail = [.offset 32] := ⟨_, _, by cbv, by cbv⟩
    exact (told_notesFile_of_error rfl hstep).trans htrail
  · have hread := Reader.ofBytes_header .little .data ⟨7⟩ 5 (Writer.words .little sampleCutKey)
    refine ⟨_, _, rfl, hread, (diagnosis_truthful hread).2 rfl, ?_⟩
    obtain ⟨e, s, hstep, htrail⟩ : ∃ e s, Decoder.dataUnit none
        ⟨.data, .little, ⟨7⟩, 5, 12, Writer.words .little sampleCutKey⟩ = .error e s ∧
          e.trail = [.offset 24] := ⟨_, _, by cbv, by cbv⟩
    exact (told_dataFile_of_error rfl hstep).trans htrail

end CoverageFlow
