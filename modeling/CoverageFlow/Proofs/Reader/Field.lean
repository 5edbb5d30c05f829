import CoverageFlow.Reader.Basic
import CoverageFlow.Writer.Basic

/-!
# Reading back what was written

A reading step is judged by what it does where certain bytes come next: it reads these bytes and
nothing else, whatever follows them, and yields a certain value. Steps of this kind can be put one
after the other, as their bytes can, so whole files are read back piece by piece.

Fields and records are read back for any values, except that a name must not contain the character
that ends it, and that the length of a record must be a word.

## Main definitions

* `Decoder.Reads`: a step reads certain bytes as a certain value.

## Main results

* `Decoder.Reads.bind`: what two steps read, both together do.
* `Decoder.reads_word`, `Decoder.reads_long`, `Decoder.reads_string`: fields.
* `Decoder.reads_record`: a record is read through its body.
* `Decoder.reads_repeatWhile`, `Decoder.reads_untilEmpty`: repeated steps.
* `Reader.ofBytes_header`, `Reader.isFinished_ending`: the beginning and the end of a file.
-/

namespace CoverageFlow

/-! ### Whole words -/

namespace Writer

variable (o : ByteOrder)

theorem dvd_length_word (w : UInt32) : 4 ∣ (word o w).length :=
  ⟨1, length_word o w⟩

theorem dvd_length_long (n : UInt64) : 4 ∣ (long o n).length :=
  ⟨2, length_long o n⟩

theorem dvd_length_string (s : String) : 4 ∣ (string o s).length := by
  rw [length_string]
  exact ⟨1 + stringWords s.toUTF8.data.toList, by omega⟩

theorem dvd_length_append {bytes₁ bytes₂ : List UInt8} (h₁ : 4 ∣ bytes₁.length)
    (h₂ : 4 ∣ bytes₂.length) : 4 ∣ (bytes₁ ++ bytes₂).length := by
  rw [List.length_append]
  exact Nat.dvd_add h₁ h₂

theorem dvd_length_flatMap {α : Type} {write : α → List UInt8} (h : ∀ a, 4 ∣ (write a).length)
    (as : List α) : 4 ∣ (as.flatMap write).length := by
  induction as with
  | nil => exact ⟨0, rfl⟩
  | cons a as ih =>
    rw [List.flatMap_cons]
    exact dvd_length_append (h a) ih

end Writer

/-! ### Moving a reader on -/

namespace Reader

/-- The reader after it has read some more bytes. -/
def skip (r : Reader) (count : Nat) : Reader :=
  { r with position := r.position + count, unread := r.unread.drop count }

theorem skip_skip (r : Reader) (a b : Nat) : (r.skip a).skip b = r.skip (a + b) := by
  simp only [skip, List.drop_drop, Nat.add_assoc]

theorem unread_skip {r : Reader} {bytes rest : List UInt8} (h : r.unread = bytes ++ rest) :
    (r.skip bytes.length).unread = rest := by
  simp only [skip, h, List.drop_left]

end Reader

namespace Decoder

variable {α β : Type} {o : ByteOrder} {bytes bytes₁ bytes₂ rest : List UInt8}

/-! ### Steps that read what is written -/

/-- Where the given bytes come next and then the rest, a step reads the given bytes and nothing
else, and yields the given value. -/
def Reads (o : ByteOrder) (p : Decoder α) (bytes rest : List UInt8) (a : α) : Prop :=
  ∀ r : Reader, r.order = o → r.unread = bytes ++ rest → p r = .ok a (r.skip bytes.length)

theorem reads_pure (a : α) : Reads o (pure a) [] rest a :=
  fun _ _ _ => rfl

/-- What two steps read, one after the other, is read by both together. -/
theorem Reads.bind {p : Decoder α} {f : α → Decoder β} {a : α} {b : β}
    (hp : Reads o p bytes₁ (bytes₂ ++ rest) a) (hf : Reads o (f a) bytes₂ rest b) :
    Reads o (p >>= f) (bytes₁ ++ bytes₂) rest b := by
  intro r ho hr
  rw [List.append_assoc] at hr
  rw [run_bind, hp r ho hr, List.length_append, ← Reader.skip_skip]
  exact hf _ ho (Reader.unread_skip hr)

theorem Reads.map {p : Decoder α} {a : α} (hp : Reads o p bytes rest a) (f : α → β) :
    Reads o (p >>= fun a => pure (f a)) bytes rest (f a) := by
  rw [← List.append_nil bytes]
  exact Reads.bind hp (reads_pure (f a))

/-! ### Fields -/

theorem reads_word (w : UInt32) (rest : List UInt8) : Reads o word (Writer.word o w) rest w := by
  intro r ho hr
  obtain ⟨a, b, c, d, hbytes, hw⟩ := ByteOrder.word_bytes o w
  rw [Writer.word, hbytes] at hr ⊢
  simp only [word, hr, List.cons_append, List.nil_append, ho, hw, Reader.skip]
  rfl

theorem remaining_word {w : UInt32} {r r' : Reader} (h : word r = .ok w r') :
    r'.remaining + 4 = r.remaining := by
  rw [word] at h
  split at h
  · next hunread =>
    cases h
    rw [Reader.remaining, Reader.remaining, hunread]
    rfl
  · cases h

theorem reads_long (n : UInt64) (rest : List UInt8) : Reads o long (Writer.long o n) rest n := by
  have hvalue : UInt64.ofNat ((UInt32.ofNat (n.toNat / UInt32.size)).toNat * UInt32.size +
      (UInt32.ofNat n.toNat).toNat) = n := by
    have := n.toNat_lt_size
    rw [← UInt64.toNat_inj, UInt64.toNat_ofNat', UInt32.toNat_ofNat', UInt32.toNat_ofNat']
    simp only [UInt32.size, UInt64.size] at *
    omega
  have hread : Reads o long (Writer.long o n) rest _ :=
    Reads.bind (reads_word _ _) (Reads.map (reads_word _ _) _)
  rwa [hvalue] at hread

theorem reads_take (bytes rest : List UInt8) : Reads o (take bytes.length) bytes rest bytes := by
  intro r ho hr
  simp [take, hr, Reader.skip]

/-- Bytes that are taken are those that come next. -/
theorem take_eq_ok {r r' : Reader} {count : Nat} {bytes : List UInt8}
    (h : take count r = .ok bytes r') : ∃ rest, r.unread = bytes ++ rest ∧ bytes.length = count ∧
      r' = { r with position := r.position + count, unread := rest } := by
  simp only [take] at h
  split at h
  · next hlength =>
    cases h
    exact ⟨_, (List.take_append_drop ..).symm, hlength, rfl⟩
  · cases h

/-! ### Names -/

/-- The bytes of a name end before the first zero. -/
theorem takeWhile_ne_zero {bytes : List UInt8} (h : ∀ b ∈ bytes, b ≠ 0) (count : Nat) :
    (bytes ++ List.replicate count 0).takeWhile (· ≠ 0) = bytes := by
  rw [List.takeWhile_append_of_pos fun b hb => by simpa using h b hb]
  cases count with
  | zero => exact List.append_nil bytes
  | succ count => rw [List.replicate_succ, List.takeWhile_cons_of_neg (by simp), List.append_nil]

theorem reads_string {s : String} (hs : '\x00' ∉ s.toList)
    (hlength : Writer.stringWords s.toUTF8.data.toList < UInt32.size) (rest : List UInt8) :
    Reads o string (Writer.string o s) rest (some s) := by
  rw [Writer.string, List.append_assoc]
  have hwords : (UInt32.ofNat (Writer.stringWords s.toUTF8.data.toList)).toNat =
      Writer.stringWords s.toUTF8.data.toList := UInt32.toNat_ofNat_of_lt' hlength
  refine Reads.bind (reads_word _ _) fun r ho hr => ?_
  generalize hw : UInt32.ofNat (Writer.stringWords s.toUTF8.data.toList) = w at hwords
  have hne : w ≠ 0 := by
    rintro rfl
    rw [Writer.stringWords] at hwords
    exact absurd hwords (by simp)
  have hpadded : 4 * w.toNat = (s.toUTF8.data.toList ++ List.replicate
      (4 * Writer.stringWords s.toUTF8.data.toList - s.toUTF8.data.toList.length) 0).length := by
    rw [List.length_append, List.length_replicate, hwords, Writer.stringWords]
    omega
  rw [if_neg hne, run_get_bind, run_bind, hpadded, reads_take _ _ r ho hr]
  simp only [takeWhile_ne_zero fun b hb => Utf8.ne_zero_of_mem_toUTF8 hs hb, Utf8.decode_toUTF8]
  rfl

theorem reads_string_absent (rest : List UInt8) :
    Reads o string (Writer.word o 0) rest none := by
  intro r ho hr
  rw [string, run_bind, reads_word 0 rest r ho hr]
  rfl

/-! ### Records -/

/-- The reader of the body of the next record, which stands behind its tag and its length. -/
def bodyReader (r : Reader) (body : List UInt8) : Reader :=
  { r with position := r.position + 8, unread := body }

/-- What is written as a record is read as one if its body consists of words and fits. -/
theorem record_eq_ok {r : Reader} {tag : Tag} {body : List UInt8} (ho : r.order = o)
    (hr : r.unread = Writer.record o tag body ++ rest) (hbody : Writer.Fits body)
    (hwords : 4 ∣ body.length) :
    record r = .ok (tag, bodyReader r body) (r.skip (Writer.record o tag body).length) := by
  rw [Writer.record, List.append_assoc, List.append_assoc] at hr
  have hr₁ := Reader.unread_skip hr
  have hr₂ := Reader.unread_skip hr₁
  have hlength : 4 * (UInt32.ofNat (body.length / 4)).toNat = body.length := by
    rw [UInt32.toNat_ofNat_of_lt' hbody]
    omega
  rw [record, run_bind, reads_word _ _ r ho hr]
  dsimp only
  rw [run_bind, reads_word _ _ (r.skip _) ho hr₁]
  dsimp only
  rw [run_get_bind, run_bind, hlength, reads_take _ _ ((r.skip _).skip _) ho hr₂]
  dsimp only
  rw [run_get_bind, Reader.skip_skip, Reader.skip_skip, Writer.record, List.length_append,
    List.length_append, Writer.length_word, Writer.length_word, Nat.add_assoc]
  rfl

theorem within_eq_ok {p : Decoder α} {a : α} {body : List UInt8} (hp : Reads o p body [] a)
    {r : Reader} (ho : r.order = o) (r' : Reader) :
    within (bodyReader r body) p r' = .ok a r' := by
  rw [within, hp (bodyReader r body) ho (List.append_nil body).symm]

theorem recordWithTag_eq_ok {r : Reader} {tag : Tag} {body : List UInt8} (ho : r.order = o)
    (hr : r.unread = Writer.record o tag body ++ rest) (hbody : Writer.Fits body)
    (hwords : 4 ∣ body.length) (expectation : Expectation) :
    recordWithTag tag expectation r =
      .ok (bodyReader r body) (r.skip (Writer.record o tag body).length) := by
  rw [recordWithTag, run_get_bind, run_bind, record_eq_ok ho hr hbody hwords]
  exact congrFun (if_pos rfl) _

/-- A record with the right tag is read through its body. -/
theorem reads_record {p : Decoder α} {a : α} {tag : Tag} {body : List UInt8}
    (hp : Reads o p body [] a) (hbody : Writer.Fits body) (hwords : 4 ∣ body.length)
    (expectation : Expectation) (rest : List UInt8) :
    Reads o (recordWithTag tag expectation >>= fun body => within body p) (Writer.record o tag body)
      rest a := by
  intro r ho hr
  rw [run_bind, recordWithTag_eq_ok ho hr hbody hwords]
  exact within_eq_ok hp ho _

theorem Reads.map_record {p : Decoder α} {a : α} {tag : Tag} {body : List UInt8}
    (hp : Reads o p body [] a) (hbody : Writer.Fits body) (hwords : 4 ∣ body.length)
    (expectation : Expectation) (f : α → β) :
    Reads o (recordWithTag tag expectation >>= fun body => within body p >>= fun a => pure (f a))
      (Writer.record o tag body) rest (f a) := by
  rw [← bind_assoc]
  exact Reads.map (reads_record hp hbody hwords expectation rest) f

/-! ### Repetition -/

/-- A step that does not depend on the value before it reads what is written for some values, one
after the other, if it stops behind them. -/
theorem reads_repeatWhile {step : Decoder (Option α)} {h : Yields Reader.remaining step}
    {write : α → List UInt8} {as : List α}
    (hstep : ∀ a ∈ as, ∀ rest, Reads o step (write a) rest (some a))
    (hend : Reads o step [] rest none) (previous : Option α) :
    Reads o (repeatWhile Reader.remaining (fun _ => step) (fun _ => h) previous)
      (as.flatMap write) rest as := by
  intro r ho hr
  refine Repeats.repeatWhile_eq ?_
  induction as generalizing r previous with
  | nil => exact .stop (hend r ho hr)
  | cons a as ih =>
    obtain ⟨ha, has⟩ := List.forall_mem_cons.1 hstep
    rw [List.flatMap_cons, List.append_assoc] at hr
    rw [List.flatMap_cons, List.length_append, ← Reader.skip_skip]
    exact .next (ha _ r ho hr) (ih has _ _ ho (Reader.unread_skip hr))

theorem reads_untilEmpty {step : Decoder α} {h : Consumes step} {write : α → List UInt8}
    {as : List α} (hstep : ∀ a ∈ as, ∀ rest, Reads o step (write a) rest a)
    (hwrite : ∀ a, write a ≠ []) : Reads o (untilEmpty step h) (as.flatMap write) [] as := by
  refine reads_repeatWhile (fun a ha rest r ho hr => ?_) (fun r ho hr => ?_) none
  · have hempty : r.isEmpty = false := by
      obtain ⟨b, bs, hb⟩ := List.exists_cons_of_ne_nil (hwrite a)
      rw [Reader.isEmpty, hr, hb]
      rfl
    rw [unlessEmpty, run_get_bind, hempty]
    exact Reads.map (hstep a ha rest) some r ho hr
  · have hempty : r.isEmpty = true := by
      rw [Reader.isEmpty, hr]
      rfl
    rw [unlessEmpty, run_get_bind, hempty]
    rfl

end Decoder

/-! ### Header and end of a file -/

theorem FileType.exists_bytes_magic (o : ByteOrder) (fileType : FileType) :
    ∃ a b c d, o.bytes fileType.magic = [a, b, c, d] ∧
      FileType.ofMagic? (ByteOrder.little.word a b c d) = some (fileType, o) := by
  cases o <;> cases fileType <;> exact ⟨_, _, _, _, rfl, by decide⟩

namespace Reader

variable {o : ByteOrder}

theorem headerWords_reads (o : ByteOrder) (version stamp : UInt32) (rest : List UInt8) :
    Decoder.Reads o (do
        let version ← Decoder.word
        let stamp ← Decoder.word
        return (version, stamp))
      (Writer.word o version ++ Writer.word o stamp) rest (version, stamp) :=
  Decoder.Reads.bind (Decoder.reads_word _ _) (Decoder.Reads.map (Decoder.reads_word _ _) _)

/-- The reader of a file with a given header. -/
theorem ofBytes_header (o : ByteOrder) (fileType : FileType) (version : Version) (stamp : UInt32)
    (rest : List UInt8) : ofBytes (Writer.header o fileType version stamp ++ rest) =
      .ok ⟨fileType, o, version, stamp, 12, rest⟩ := by
  obtain ⟨a, b, c, d, hbytes, hmagic⟩ := FileType.exists_bytes_magic o fileType
  have hread := headerWords_reads o version.word stamp rest
    ⟨fileType, o, ⟨0⟩, 0, 4, Writer.word o version.word ++ (Writer.word o stamp ++ rest)⟩ rfl
    (List.append_assoc ..).symm
  have hlength : (Writer.word o version.word ++ Writer.word o stamp).length = 8 := by
    rw [List.length_append, Writer.length_word, Writer.length_word]
  rw [hlength] at hread
  rw [Writer.header, List.append_assoc, List.append_assoc, Writer.word, hbytes]
  simp only [List.cons_append, List.nil_append, ofBytes, hmagic, hread]
  simp only [skip, ← List.append_assoc, List.drop_left' hlength]

/-- What may stand at the end of a file is not read. -/
theorem isFinished_ending {r : Reader} (ho : r.order = o) {marked : Bool}
    (hr : r.unread = Writer.ending o marked) : r.isFinished = true := by
  cases marked with
  | false =>
    rw [isFinished, hr]
    rfl
  | true =>
    obtain ⟨a, b, c, d, hbytes, hzero⟩ := ByteOrder.word_bytes o 0
    rw [isFinished, hr]
    simp only [Writer.ending, Writer.word, hbytes, if_true, ho, hzero]
    rfl

variable {tag : Tag} {body rest : List UInt8} {r : Reader}

/-- A record is not the end of a file. -/
theorem isFinished_record (hr : r.unread = Writer.record o tag body ++ rest) :
    r.isFinished = false := by
  have hlength : 8 ≤ r.unread.length := by
    rw [hr, List.length_append, Writer.length_record, Nat.add_assoc]
    exact Nat.le_add_right ..
  rw [isFinished]
  split
  · next h => simp [h] at hlength
  · next h => simp [h] at hlength
  · rfl

theorem nextTag_record (ho : r.order = o) (hr : r.unread = Writer.record o tag body ++ rest) :
    r.nextTag = some tag := by
  obtain ⟨a, b, c, d, hbytes, hword⟩ := ByteOrder.word_bytes o tag.word
  rw [nextTag, hr, ho]
  simp only [Writer.record, Writer.word, hbytes, List.cons_append, hword]

end Reader

end CoverageFlow
