import CoverageFlow.Proofs.Reader.Field
import CoverageFlow.Proofs.Reader.Realization
import CoverageFlow.Proofs.Text.Utf8

/-!
# Files as sequences of words

Coverage files consist of words, so any bytes are looked at as words and up to three stray bytes
behind them. Every field takes whole words, and a step that reads a field never touches the stray
bytes. What steps accept is therefore told by languages over words.

## Main definitions

* `Writer.words`, `Writer.recordWords`: the bytes of words, and the words of a record.
* `Reader.Shows`: certain words are next, and then certain stray bytes.
* `Heads`: what is next begins with a word of a language.
* `nameWords`, `records`: the languages of names and of records.

## Main results

* `Decoder.realizes_word`, `Decoder.realizes_long`, `Decoder.realizes_string`: fields.
* `Decoder.realizes_record`, `Decoder.realizes_recordWithTag`: records.
* `Decoder.recognizes_untilEmpty`: repeated fields.
-/

open scoped Computability

namespace CoverageFlow

/-! ### Bytes as words -/

theorem ByteOrder.bytes_word (o : ByteOrder) (a b c d : UInt8) :
    o.bytes (o.word a b c d) = [a, b, c, d] := by
  have hbytes (a b c d : UInt8) : littleBytes (littleWord a b c d) = [a, b, c, d] := by
    have ha := a.toNat_lt
    have hb := b.toNat_lt
    have hc := c.toNat_lt
    have hd := d.toNat_lt
    rw [littleBytes, littleWord, UInt32.toNat_ofNat_of_lt' (by rw [UInt32.size]; omega)]
    simp only [List.cons.injEq, and_true, ← UInt8.toNat_inj, UInt8.toNat_ofNat']
    omega
  cases o with
  | little => exact hbytes a b c d
  | big => exact congrArg List.reverse (hbytes d c b a)

namespace Writer

variable (o : ByteOrder)

/-- The bytes of words, one after the other. -/
def words (ws : List UInt32) : List UInt8 :=
  ws.flatMap (word o)

theorem words_cons (w : UInt32) (ws : List UInt32) : words o (w :: ws) = word o w ++ words o ws :=
  List.flatMap_cons

theorem words_singleton (w : UInt32) : words o [w] = word o w :=
  List.flatMap_singleton ..

theorem words_append (us ws : List UInt32) : words o (us ++ ws) = words o us ++ words o ws :=
  List.flatMap_append

theorem length_words (ws : List UInt32) : (words o ws).length = 4 * ws.length := by
  induction ws with
  | nil => rfl
  | cons w ws ih =>
    rw [words_cons, List.length_append, length_word, ih, List.length_cons]
    omega

/-- Any bytes are words and fewer than four stray bytes. -/
theorem exists_words (bytes : List UInt8) :
    ∃ ws stray, bytes = words o ws ++ stray ∧ stray.length < 4 := by
  match bytes with
  | a :: b :: c :: d :: rest =>
    obtain ⟨ws, stray, rfl, hstray⟩ := exists_words rest
    refine ⟨o.word a b c d :: ws, stray, ?_, hstray⟩
    rw [words_cons, word, ByteOrder.bytes_word]
    rfl
  | [] => exact ⟨[], [], rfl, by decide⟩
  | [a] => exact ⟨[], [a], rfl, by simp⟩
  | [a, b] => exact ⟨[], [a, b], rfl, by simp⟩
  | [a, b, c] => exact ⟨[], [a, b, c], rfl, by simp⟩

theorem word_injective {v w : UInt32} (h : word o v = word o w) : v = w := by
  obtain ⟨a, b, c, d, hv, rfl⟩ := ByteOrder.word_bytes o v
  obtain ⟨a', b', c', d', hw, rfl⟩ := ByteOrder.word_bytes o w
  rw [word, word, hv, hw] at h
  cases h
  rfl

theorem words_injective {us ws : List UInt32} (h : words o us = words o ws) : us = ws := by
  have hlength := congrArg List.length h
  rw [length_words, length_words] at hlength
  induction us generalizing ws with
  | nil => exact (List.length_eq_zero_iff.1 (Nat.eq_of_mul_eq_mul_left four_pos hlength).symm).symm
  | cons u us ih =>
    match ws with
    | [] => cases hlength
    | w :: ws =>
      rw [words_cons, words_cons] at h
      obtain ⟨hfirst, hrest⟩ := List.append_inj h (by rw [length_word, length_word])
      rw [word_injective o hfirst, ih hrest (by rw [← length_words, ← length_words, hrest])]

/-- There is only one way to look at bytes as words and stray bytes. -/
theorem words_append_inj {us ws : List UInt32} {stray stray' : List UInt8}
    (h : words o us ++ stray = words o ws ++ stray') (hstray : stray.length < 4)
    (hstray' : stray'.length < 4) : us = ws ∧ stray = stray' := by
  have hlength := congrArg List.length h
  rw [List.length_append, List.length_append, length_words, length_words] at hlength
  obtain ⟨hwords, rfl⟩ := List.append_inj h (by rw [length_words, length_words]; omega)
  exact ⟨words_injective o hwords, rfl⟩

/-- The words of a record: its tag, the length of its body, and its body. -/
def recordWords (tag : Tag) (body : List UInt32) : List UInt32 :=
  tag.word :: UInt32.ofNat body.length :: body

end Writer

/-! ### What is next -/

/-- A word of a language is next, and then the rest. -/
def Heads {α : Type} (L : Language α) (x y : List α) : Prop :=
  ∃ u ∈ L, x = u ++ y

section

variable {α : Type} {L M : Language α} {x y z : List α}

theorem heads_one : Heads (1 : Language α) = fun x y => y = x := by
  funext x y
  refine propext ⟨?_, ?_⟩
  · rintro ⟨_, rfl, rfl⟩
    rfl
  · rintro rfl
    exact ⟨[], rfl, rfl⟩

theorem heads_singleton {u : List α} : Heads {u} x y ↔ x = u ++ y :=
  ⟨fun ⟨_, hu, h⟩ => (Set.mem_singleton_iff.1 hu) ▸ h, fun h => ⟨u, rfl, h⟩⟩

theorem heads_add : Heads (L + M) x y ↔ Heads L x y ∨ Heads M x y := by
  simp only [Heads, Language.mem_add, or_and_right, exists_or]

theorem heads_mul : Heads (L * M) = Relation.Comp (Heads L) (Heads M) := by
  funext x z
  refine propext ⟨?_, ?_⟩
  · rintro ⟨_, hw, rfl⟩
    obtain ⟨u, hu, v, hv, rfl⟩ := Language.mem_mul.1 hw
    exact ⟨v ++ z, ⟨u, hu, List.append_assoc ..⟩, v, hv, rfl⟩
  · rintro ⟨_, ⟨u, hu, rfl⟩, v, hv, rfl⟩
    exact ⟨u ++ v, Language.append_mem_mul hu hv, (List.append_assoc ..).symm⟩

/-- Whatever comes behind a word of a language is skipped. -/
theorem exists_heads_iff : (∃ y, Heads L x y) ↔ x ∈ L * ⊤ := by
  rw [Language.mem_mul]
  constructor
  · rintro ⟨y, u, hu, rfl⟩
    exact ⟨u, hu, y, trivial, rfl⟩
  · rintro ⟨u, hu, y, -, rfl⟩
    exact ⟨y, u, hu, rfl⟩

/-- Any number of words of a language are next. -/
theorem heads_kstar : Heads L∗ = Relation.ReflTransGen (Heads L) := by
  funext x y
  refine propext ⟨?_, ?_⟩
  · rintro ⟨_, hw, rfl⟩
    obtain ⟨us, rfl, hus⟩ := Language.mem_kstar.1 hw
    induction us with
    | nil => exact .refl
    | cons u us ih =>
      obtain ⟨hu, hus⟩ := List.forall_mem_cons.1 hus
      refine .head ⟨u, hu, ?_⟩ (ih hus (Language.join_mem_kstar hus))
      rw [List.flatten_cons, List.append_assoc]
  · intro h
    induction h using Relation.ReflTransGen.head_induction_on with
    | refl => exact ⟨[], Language.nil_mem_kstar L, rfl⟩
    | head first _ ih =>
      obtain ⟨u, hu, rfl⟩ := first
      obtain ⟨v, hv, rfl⟩ := ih
      obtain ⟨us, rfl, hus⟩ := Language.mem_kstar.1 hv
      have hmem : (u :: us).flatten ∈ L∗ :=
        Language.join_mem_kstar (List.forall_mem_cons.2 ⟨hu, hus⟩)
      exact ⟨_, hmem, by rw [List.flatten_cons, List.append_assoc]⟩

end

/-- What two steps recognize, one after the other, is recognized by both together. -/
theorem Recognizes.bind_heads {σ α β γ : Type} {E : Set Error} {H : List γ → σ → Prop}
    {p : EStateM Failure σ α} {f : α → EStateM Failure σ β} {L M : Language γ}
    (hp : Recognizes E H p (Heads L)) (hf : ∀ a, Recognizes E H (f a) (Heads M)) :
    Recognizes E H (p >>= f) (Heads (L * M)) := by
  rw [heads_mul]
  exact hp.bind hf

/-! ### Languages of fields and records -/

/-- The words of a name, which is absent or given by its length and that many words. Up to the
first zero byte these are the bytes of the name. -/
def nameWords (o : ByteOrder) : Option String → Language UInt32
  | none => {[0]}
  | some s => {ws | ∃ n chunk, ws = n :: chunk ∧ n ≠ 0 ∧ chunk.length = n.toNat ∧
      s.toUTF8.data.toList = (Writer.words o chunk).takeWhile (· ≠ 0)}

/-- The words of records with a tag whose bodies belong to a language. -/
def records (tag : Tag) (bodies : Language UInt32) : Language UInt32 :=
  {ws | ∃ body ∈ bodies, body.length < UInt32.size ∧ ws = Writer.recordWords tag body}

theorem heads_records {tag : Tag} {L : Language UInt32} {x y : List UInt32} :
    Heads (records tag L) x y ↔
      ∃ body ∈ L, body.length < UInt32.size ∧ x = Writer.recordWords tag body ++ y := by
  constructor
  · rintro ⟨_, ⟨body, hbody, hlength, rfl⟩, rfl⟩
    exact ⟨body, hbody, hlength, rfl⟩
  · rintro ⟨body, hbody, hlength, rfl⟩
    exact ⟨_, ⟨body, hbody, hlength, rfl⟩, rfl⟩

/-- A record begins with its tag. -/
theorem tag_of_heads_records {tag : Tag} {L : Language UInt32} {w : UInt32} {x y : List UInt32}
    (h : Heads (records tag L) (w :: x) y) : tag = ⟨w⟩ := by
  obtain ⟨body, -, -, heq⟩ := heads_records.1 h
  exact congrArg Tag.mk (List.cons.inj heq).1.symm

theorem not_heads_records_nil {tag : Tag} {L : Language UInt32} {y : List UInt32} :
    ¬ Heads (records tag L) [] y := by
  rw [heads_records]
  rintro ⟨body, -, -, h⟩
  cases h

theorem head?_of_heads_records {tag : Tag} {L : Language UInt32} {x y : List UInt32}
    (h : Heads (records tag L) x y) : x.head? = some tag.word := by
  obtain ⟨body, -, -, rfl⟩ := heads_records.1 h
  rfl

/-- A record with a known first word, whatever its tag is. -/
theorem exists_heads_records_iff {L : Language UInt32} {w : UInt32} {x y : List UInt32} :
    (∃ tag, Heads (records tag L) (w :: x) y) ↔ Heads (records ⟨w⟩ L) (w :: x) y :=
  ⟨fun ⟨_, h⟩ => tag_of_heads_records h ▸ h, fun h => ⟨_, h⟩⟩

namespace Reader

/-- Certain words are next, and then fewer than four stray bytes. -/
structure Shows (o : ByteOrder) (stray : List UInt8) (ws : List UInt32) (r : Reader) : Prop where
  order : r.order = o
  unread : r.unread = Writer.words o ws ++ stray
  short : stray.length < 4

variable {o : ByteOrder} {stray : List UInt8} {ws us : List UInt32} {r : Reader}

/-- Any reader shows some words and stray bytes. -/
theorem exists_shows (r : Reader) : ∃ ws stray, Shows r.order stray ws r := by
  obtain ⟨ws, stray, hunread, hshort⟩ := Writer.exists_words r.order r.unread
  exact ⟨ws, stray, rfl, hunread, hshort⟩

theorem Shows.length_unread (h : Shows o stray ws r) :
    r.unread.length = 4 * ws.length + stray.length := by
  rw [h.unread, List.length_append, Writer.length_words]

theorem Shows.skip (h : Shows o stray (us ++ ws) r) :
    Shows o stray ws (r.skip (Writer.words o us).length) where
  order := h.order
  unread := by
    refine unread_skip ?_
    rw [h.unread, Writer.words_append, List.append_assoc]
  short := h.short

/-- Whether the end of a file has come, where certain words are next and then stray bytes. -/
def EndsAt (stray : List UInt8) (ws : List UInt32) : Prop :=
  stray = [] ∧ (ws = [] ∨ ws = [0])

/-- A record does not stand at the end of a file. -/
theorem not_endsAt_recordWords (tag : Tag) (body y : List UInt32) :
    ¬ EndsAt stray (Writer.recordWords tag body ++ y) := by
  rintro ⟨-, h | h⟩
  · cases h
  · cases (List.cons.inj h).2

theorem not_heads_records_of_endsAt {tag : Tag} {L : Language UInt32} {y : List UInt32}
    (h : EndsAt stray ws) : ¬ Heads (records tag L) ws y := by
  rw [heads_records]
  rintro ⟨body, -, -, rfl⟩
  exact not_endsAt_recordWords tag body y h

theorem Shows.isFinished_iff (h : Shows o stray ws r) : r.isFinished = true ↔ EndsAt stray ws := by
  have hlength := h.length_unread
  have hshort := h.short
  rw [isFinished]
  split
  · next hunread =>
    rw [hunread, List.length_nil] at hlength
    have hws : ws = [] := List.length_eq_zero_iff.1 (by omega)
    have hstray : stray = [] := List.length_eq_zero_iff.1 (by omega)
    exact iff_of_true rfl ⟨hstray, .inl hws⟩
  · next a b c d hunread =>
    rw [hunread] at hlength
    simp only [List.length_cons, List.length_nil] at hlength
    obtain ⟨w, rfl⟩ := List.length_eq_one_iff.1 (show ws.length = 1 by omega)
    obtain rfl : stray = [] := List.length_eq_zero_iff.1 (by omega)
    obtain ⟨a', b', c', d', hbytes, rfl⟩ := ByteOrder.word_bytes o w
    rw [h.unread, List.append_nil, Writer.words_singleton, Writer.word, hbytes]
      at hunread
    cases hunread
    simp [EndsAt, h.order]
  · next hempty hword =>
    refine iff_of_false Bool.false_ne_true ?_
    rintro ⟨rfl, rfl | rfl⟩
    · exact hempty h.unread
    · obtain ⟨a, b, c, d, hbytes, -⟩ := ByteOrder.word_bytes o 0
      refine hword a b c d ?_
      rw [h.unread, List.append_nil, Writer.words_singleton, Writer.word, hbytes]

/-- Words of a language are all that is left before the end of a file. -/
theorem exists_heads_endsAt_iff {L : Language UInt32} (hshort : stray.length < 4) :
    (∃ y, Heads L ws y ∧ EndsAt stray y) ↔
      ∃ u ∈ L, ∃ marked,
        Writer.words o ws ++ stray = Writer.words o u ++ Writer.ending o marked := by
  constructor
  · rintro ⟨y, ⟨u, hu, rfl⟩, rfl, rfl | rfl⟩
    · refine ⟨u, hu, false, ?_⟩
      rw [List.append_nil, List.append_nil]
      exact (List.append_nil _).symm
    · refine ⟨u, hu, true, ?_⟩
      rw [List.append_nil, Writer.words_append, Writer.words_singleton]
      rfl
  · rintro ⟨u, hu, marked, h⟩
    obtain ⟨y, hy, hend⟩ : ∃ y, (y = [] ∨ y = [0]) ∧ Writer.ending o marked = Writer.words o y := by
      cases marked with
      | false => exact ⟨[], .inl rfl, rfl⟩
      | true => exact ⟨[0], .inr rfl, (Writer.words_singleton o 0).symm⟩
    rw [hend, ← Writer.words_append, ← List.append_nil (Writer.words o (u ++ y))] at h
    obtain ⟨rfl, rfl⟩ := Writer.words_append_inj o h hshort (by decide)
    exact ⟨y, ⟨u, hu, rfl⟩, rfl, hy⟩

/-- The first word of a file tells what its header begins with. -/
theorem bytes_magic {magic : UInt32} {fileType : FileType}
    (h : FileType.ofMagic? magic = some (fileType, o)) :
    o.bytes fileType.magic = ByteOrder.little.bytes magic := by
  unfold FileType.ofMagic? at h
  split_ifs at h with h₁ h₂ h₃ h₄
  all_goals
    cases h
    subst magic
    decide

theorem word_eq_ok {r r' : Reader} {w : UInt32} (h : Decoder.word r = .ok w r') :
    ∃ rest, r.unread = Writer.word r.order w ++ rest ∧
      r' = { r with position := r.position + 4, unread := rest } := by
  rw [Decoder.word] at h
  split at h
  · next a b c d rest hunread =>
    cases h
    exact ⟨rest, by rw [hunread, Writer.word, ByteOrder.bytes_word]; rfl, rfl⟩
  · cases h

/-- A file that a reader is placed in begins with its header. -/
theorem eq_header_append_unread {bytes : List UInt8} (h : ofBytes bytes = .ok r) :
    bytes = Writer.header r.order r.fileType r.version r.stamp ++ r.unread := by
  unfold ofBytes at h
  split at h
  · next a b c d rest =>
    dsimp only at h
    split at h
    · cases h
    · next fileType order hmagic =>
      split at h
      · next hheader =>
        cases h
        obtain ⟨version, r₁, hversion, hheader⟩ := bind_eq_ok_iff.1 hheader
        obtain ⟨stamp, r₂, hstamp, hheader⟩ := bind_eq_ok_iff.1 hheader
        cases hheader
        obtain ⟨rest₁, hrest, rfl⟩ := word_eq_ok hversion
        obtain ⟨rest₂, hrest₁, rfl⟩ := word_eq_ok hstamp
        have hfirst := bytes_magic hmagic
        rw [ByteOrder.bytes_word] at hfirst
        dsimp only at hrest hrest₁ ⊢
        rw [Writer.header, Writer.word, hfirst, hrest, hrest₁, List.append_assoc, List.append_assoc]
        rfl
      · cases h
  · cases h

/-- The reader of a file stands behind the twelve bytes of its header. -/
theorem unread_ofBytes {bytes : List UInt8} (h : ofBytes bytes = .ok r) :
    r.unread = bytes.drop 12 := by
  have hlength : (Writer.header r.order r.fileType r.version r.stamp).length = 12 := by
    simp only [Writer.header, List.length_append, Writer.length_word]
  rw [eq_header_append_unread h, List.drop_left' hlength]

theorem position_ofBytes {bytes : List UInt8} (h : ofBytes bytes = .ok r) : r.position = 12 := by
  rw [eq_header_append_unread h, ofBytes_header] at h
  exact (congrArg Reader.position (Except.ok.inj h)).symm

/-- The tag of the next record is the next word, if there is one. -/
theorem Shows.nextTag_eq (h : Shows o stray ws r) : r.nextTag = ws.head?.map Tag.mk := by
  match ws with
  | [] =>
    have hlength := h.length_unread
    have hshort := h.short
    rw [nextTag]
    split
    · next hunread =>
      rw [hunread] at hlength
      simp only [List.length_cons, List.length_nil] at hlength
      omega
    · rfl
  | w :: ws =>
    obtain ⟨a, b, c, d, hbytes, hword⟩ := ByteOrder.word_bytes o w
    rw [nextTag, h.unread, h.order, Writer.words_cons, Writer.word, hbytes]
    simp only [List.cons_append, List.nil_append, hword, List.head?_cons, Option.map_some]

theorem Shows.isEmpty_iff (h : Shows o [] ws r) : r.isEmpty = true ↔ ws = [] := by
  rw [isEmpty, List.isEmpty_iff, ← List.length_eq_zero_iff, h.length_unread,
    ← List.length_eq_zero_iff, List.length_nil]
  omega

end Reader

namespace Decoder

variable {α β γ δ : Type} {E : Set Error} {o : ByteOrder} {stray : List UInt8} {V : α → β → Prop}

/-! ### Fields -/

theorem realizes_failAt {e : Error} (he : e ∈ E) (position : ℕ) :
    Realizes (α := α) E (Reader.Shows o stray) V (failAt position e) fun _ _ _ => False :=
  fun _ _ _ => .error he fun _ _ => id

theorem realizes_word (hE : .endOfFile ∈ E) :
    Realizes E (Reader.Shows o stray) Eq word fun x w y => x = w :: y := by
  intro x r hr
  match x with
  | [] =>
    have hlength := hr.length_unread
    have hshort := hr.short
    rw [word]
    split
    · next hunread =>
      rw [hunread] at hlength
      simp only [List.length_cons, List.length_nil] at hlength
      omega
    · exact .error hE (by rintro _ _ ⟨⟩)
  | w :: y =>
    have hunread := hr.unread
    rw [Writer.words_cons, List.append_assoc] at hunread
    rw [reads_word w _ r hr.order hunread]
    rw [← Writer.words_singleton]
    have hrest : Reader.Shows o stray y (r.skip (Writer.words o [w]).length) := .skip hr
    refine .ok rfl hrest rfl ?_
    rintro _ _ ⟨⟩
    exact ⟨rfl, rfl⟩

/-- Words are taken if there are as many. -/
theorem realizes_take (hE : .endOfFile ∈ E) (n : ℕ) :
    Realizes E (Reader.Shows o stray) (fun bytes ws => bytes = Writer.words o ws) (take (4 * n))
      fun x ws y => x = ws ++ y ∧ ws.length = n := by
  intro x r hr
  by_cases hn : n ≤ x.length
  · obtain ⟨ws, y, rfl, rfl⟩ : ∃ ws y, x = ws ++ y ∧ ws.length = n :=
      ⟨x.take n, x.drop n, (List.take_append_drop n x).symm, List.length_take_of_le hn⟩
    have hunread := hr.unread
    rw [Writer.words_append, List.append_assoc] at hunread
    rw [← Writer.length_words o, reads_take _ _ r hr.order hunread]
    refine .ok rfl hr.skip ⟨rfl, rfl⟩ ?_
    rintro ws' y' ⟨happend, hlength⟩
    obtain ⟨rfl, rfl⟩ := List.append_inj happend hlength.symm
    exact ⟨rfl, rfl⟩
  · have hlength := hr.length_unread
    have hshort := hr.short
    have htaken : (r.unread.take (4 * n)).length ≠ 4 * n := by
      rw [List.length_take]
      omega
    rw [take]
    simp only [htaken, if_false]
    refine .error hE ?_
    rintro ws y ⟨rfl, rfl⟩
    rw [List.length_append] at hn
    omega

/-- Two words are one number, the low word first. -/
theorem realizes_long (hE : .endOfFile ∈ E) :
    Realizes E (Reader.Shows o stray) Eq long fun x n y => ∃ low high,
      x = low :: high :: y ∧ n = UInt64.ofNat (high.toNat * UInt32.size + low.toNat) := by
  refine ((realizes_word hE).bind_eq fun low => (realizes_word hE).map_eq _).congr fun x n z => ?_
  constructor
  · rintro ⟨low, _, rfl, high, rfl, rfl⟩
    exact ⟨low, high, rfl, rfl⟩
  · rintro ⟨low, high, rfl, rfl⟩
    exact ⟨low, _, rfl, high, rfl, rfl⟩

/-- A name is read if it fits and is UTF-8 up to its first zero byte. -/
theorem realizes_string (hE : .endOfFile ∈ E) (hutf8 : ∀ fault, .invalidUtf8 fault ∈ E) :
    Realizes E (Reader.Shows o stray) Eq string fun x name y => Heads (nameWords o name) x y := by
  refine ((realizes_word hE).bind_eq (G := fun n y name z => n = 0 ∧ name = none ∧ z = y ∨ n ≠ 0 ∧
    ∃ chunk, y = chunk ++ z ∧ chunk.length = n.toNat ∧ ∃ s, name = some s ∧
      s.toUTF8.data.toList = (Writer.words o chunk).takeWhile (· ≠ 0)) fun n => ?_).congr ?_
  · split
    · next hn =>
      refine (realizes_pure rfl).congr fun x name y => ?_
      simp [hn]
    · next hn =>
      refine (realizes_get.bind fun r _ _ => (realizes_take hE n.toNat).bind
        (G := fun chunk y name z => (∃ s : String, name = some s ∧
          s.toUTF8.data.toList = (Writer.words o chunk).takeWhile (· ≠ 0)) ∧ z = y)
        fun bytes chunk hbytes => ?_).congr fun x name z => ?_
      · simp only [← Utf8.decode_eq_ok_iff, hbytes]
        cases Utf8.decode ((Writer.words o chunk).takeWhile (· ≠ 0)) with
        | ok s =>
          refine (realizes_pure rfl).congr fun x name y => and_congr_left fun _ => ?_
          simp only [Except.ok.injEq, exists_eq_right']
        | error fault =>
          refine (realizes_failAt (hutf8 fault) r.position).congr fun x name y => ?_
          simp only [reduceCtorEq, and_false, exists_false, false_and]
      constructor
      · rintro ⟨_, _, ⟨rfl, rfl⟩, chunk, _, ⟨rfl, hlength⟩, hname, rfl⟩
        exact .inr ⟨hn, chunk, rfl, hlength, hname⟩
      · rintro (⟨rfl, -⟩ | ⟨-, chunk, rfl, hlength, hname⟩)
        · exact absurd rfl hn
        · exact ⟨_, _, ⟨rfl, rfl⟩, chunk, z, ⟨rfl, hlength⟩, hname, rfl⟩
  · intro x name z
    constructor
    · rintro ⟨n, y, rfl, ⟨rfl, rfl, rfl⟩ | ⟨hn, chunk, rfl, hlength, s, rfl, hs⟩⟩
      · exact ⟨[0], rfl, rfl⟩
      · exact ⟨n :: chunk, ⟨n, chunk, rfl, hn, hlength, hs⟩, rfl⟩
    · cases name with
      | none =>
        rintro ⟨_, rfl, rfl⟩
        exact ⟨0, z, rfl, .inl ⟨rfl, rfl, rfl⟩⟩
      | some s =>
        rintro ⟨_, ⟨n, chunk, rfl, hn, hlength, hs⟩, rfl⟩
        exact ⟨n, chunk ++ z, rfl, .inr ⟨hn, chunk, rfl, hlength, s, rfl, hs⟩⟩

/-! ### Records -/

/-- A record is read if its body is complete. -/
theorem realizes_record (hE : .endOfFile ∈ E) :
    Realizes E (Reader.Shows o stray)
      (fun found (record : Tag × List UInt32) =>
        found.1 = record.1 ∧ found.2.Shows o [] record.2) record
      fun x record y => x = Writer.recordWords record.1 record.2 ++ y ∧
        record.2.length < UInt32.size := by
  have hend (tag : UInt32) (start : Reader) (bytes : List UInt8) (body : List UInt32)
      (hbytes : bytes = Writer.words o body) :
      Realizes E (Reader.Shows o stray)
        (fun found (record : Tag × List UInt32) =>
          found.1 = record.1 ∧ found.2.Shows o [] record.2)
        (do
          let rest ← get
          return (⟨tag⟩, { rest with position := start.position, unread := bytes }))
        fun x record y => record = (⟨tag⟩, body) ∧ y = x := by
    intro x r hr
    rw [run_get_bind]
    refine .ok ⟨rfl, hr.order, ?_, by decide⟩ hr ⟨rfl, rfl⟩ fun _ _ => id
    rw [hbytes, List.append_nil]
  refine ((realizes_word hE).bind_eq fun tag => (realizes_word hE).bind_eq fun length =>
    realizes_get.bind fun start _ _ => (realizes_take hE length.toNat).bind
      (hend tag start)).congr fun x record z => ?_
  constructor
  · rintro ⟨tag, _, rfl, length, _, rfl, _, _, ⟨rfl, rfl⟩, body, _, ⟨rfl, hbody⟩, rfl, rfl⟩
    refine ⟨?_, hbody ▸ length.toNat_lt⟩
    rw [Writer.recordWords, hbody, UInt32.ofNat_toNat]
    rfl
  · obtain ⟨⟨tag⟩, body⟩ := record
    rintro ⟨rfl, hbody⟩
    refine ⟨tag, _, rfl, UInt32.ofNat body.length, _, rfl, _, _, ⟨rfl, rfl⟩, body, z, ⟨rfl, ?_⟩,
      rfl, rfl⟩
    exact (UInt32.toNat_ofNat_of_lt' hbody).symm

/-- A record is read if its body is complete and it has the given tag. -/
theorem realizes_recordWithTag (hE : .endOfFile ∈ E)
    (hunexpected : ∀ tag reading, .unexpectedTag tag reading ∈ E) (tag : Tag)
    (reading : Expectation) :
    Realizes E (Reader.Shows o stray) (fun found body => found.Shows o [] body)
      (recordWithTag tag reading)
      fun x body y => x = Writer.recordWords tag body ++ y ∧ body.length < UInt32.size := by
  have htag (position : ℕ) (found : Tag × Reader) (record : Tag × List UInt32)
      (h : found.1 = record.1 ∧ found.2.Shows o [] record.2) :
      Realizes E (Reader.Shows o stray) (fun found body => found.Shows o [] body)
        (if found.1 = tag then pure found.2
          else failAt position (.unexpectedTag found.1 reading))
        fun x body y => record.1 = tag ∧ body = record.2 ∧ y = x := by
    obtain ⟨hfound, hbody⟩ := h
    split
    · next hactual =>
      refine fun _ _ hr => .ok hbody hr ⟨hfound ▸ hactual, rfl, rfl⟩ ?_
      exact fun _ _ h => h.2
    · next hactual =>
      refine (realizes_failAt (hunexpected _ reading) position).congr fun x body y => ?_
      rw [← hfound, false_iff]
      exact fun h => hactual h.1
  refine (realizes_get.bind fun r _ _ => (realizes_record hE).bind (htag r.position)).congr
    fun x body z => ?_
  constructor
  · rintro ⟨_, _, ⟨rfl, rfl⟩, ⟨_, body⟩, _, ⟨rfl, hbody⟩, rfl, rfl, rfl⟩
    exact ⟨rfl, hbody⟩
  · rintro ⟨rfl, hbody⟩
    exact ⟨_, _, ⟨rfl, rfl⟩, ⟨tag, body⟩, z, ⟨rfl, hbody⟩, rfl, rfl, rfl⟩

/-- A step on the body of a record reads the body, and the reader of the file does not move. -/
theorem realizes_within {p : Decoder α} {F : List UInt32 → β → List UInt32 → Prop}
    (hp : Realizes E (Reader.Shows o []) V p F) {body : Reader} {ws : List UInt32}
    (hbody : body.Shows o [] ws) :
    Realizes E (Reader.Shows o stray) V (within body p)
      fun x b y => (∃ rest, F ws b rest) ∧ y = x := by
  intro x r hr
  have hinside : within body p r = inside (fun _ => r) (p body) := by
    rw [Decoder.within]
    cases p body <;> rfl
  rw [hinside]
  refine ((hp ws body hbody).inside fun _ _ _ => hr).congr fun b z => ?_
  rw [exists_and_right]

/-! ### Repetition -/

/-- A step that takes something is repeated until nothing is left. -/
theorem recognizes_untilEmpty {p : Decoder α} {h : Consumes p}
    {R : List UInt32 → List UInt32 → Prop} (hp : Recognizes E (Reader.Shows o []) p R)
    (hempty : ∀ y, ¬ R [] y) :
    Recognizes E (Reader.Shows o []) (untilEmpty p h)
      fun x y => Relation.ReflTransGen R x [] ∧ y = [] := by
  have hstep : Realizes E (Reader.Shows o []) (Option.Rel fun _ (_ : Unit) => True)
      (unlessEmpty p) fun x b y => b = some () ∧ R x y ∨ b = none ∧ x = [] ∧ y = [] := by
    intro x r hr
    rw [unlessEmpty, run_get_bind]
    by_cases hx : x = []
    · rw [if_pos (hr.isEmpty_iff.2 hx)]
      subst hx
      refine .ok .none hr (.inr ⟨rfl, rfl, rfl⟩) ?_
      rintro b y (⟨-, hR⟩ | ⟨rfl, -, rfl⟩)
      · exact absurd hR (hempty y)
      · exact ⟨rfl, rfl⟩
    · rw [if_neg (mt hr.isEmpty_iff.1 hx)]
      refine (Recognizes.map_some hp id x r hr).congr fun b y => ?_
      simp only [hx, false_and, and_false, or_false]
  refine (Recognizes.repeatWhile hstep).congr fun x z => ?_
  constructor
  · rintro ⟨_, hx, rfl, rfl⟩
    exact ⟨hx, rfl⟩
  · rintro ⟨hx, rfl⟩
    exact ⟨[], hx, rfl, rfl⟩

end Decoder

end CoverageFlow
