import CoverageFlow.Proofs.Reader.Word
import CoverageFlow.Reader.Data
import CoverageFlow.Reader.Notes

/-!
# What a step ends in

A reading step ends in a value or in a failure, and it leaves a reader in either case. What holds of
both ends is stated together: a failure tells as much about what was read before it as a value does.
The statements about single steps are put together as the steps are, and a repetition needs a
statement that every step keeps, which may speak of the values so far.

## Main definitions

* `EndsIn`: what holds of the value and of the failure of a step, and of the states that they leave.
* `Preserves`: what a step leaves as it was, whether it succeeds or not.

## Main results

* `EndsIn.bind`, `EndsIn.repeatWhile`: steps that are put together.
* `Decoder.endsIn_within`, `NotesDecoder.endsIn_within`: steps on the body of a record.
* `Decoder.preserves_dataFile`, `NotesDecoder.preserves_notesFile`: what fields keep, files keep.
-/

namespace CoverageFlow

/-! ### Steps in general -/

section

variable {ε σ α β : Type} {I I' : σ → Prop} {J J' : α → σ → Prop} {L : β → σ → Prop}
  {K K' : ε → σ → Prop} {p : EStateM ε σ α} {f : α → EStateM ε σ β}

/-- From a state with `I` a step ends in a value and a state with `J`, or in a failure and a state
with `K`. -/
structure EndsIn (I : σ → Prop) (p : EStateM ε σ α) (J : α → σ → Prop) (K : ε → σ → Prop) :
    Prop where
  value : ∀ s, I s → ∀ a s', p s = .ok a s' → J a s'
  failure : ∀ s, I s → ∀ e s', p s = .error e s' → K e s'

/-- What holds before a step holds after it, whether it succeeds or not. -/
abbrev Preserves (I : σ → Prop) (p : EStateM ε σ α) : Prop :=
  EndsIn I p (fun _ => I) fun _ => I

theorem EndsIn.weaken (h : EndsIn I p J K) (hI : ∀ s, I' s → I s) (hJ : ∀ a s, J a s → J' a s)
    (hK : ∀ e s, K e s → K' e s) : EndsIn I' p J' K' where
  value s hs a s' ha := hJ a s' (h.value s (hI s hs) a s' ha)
  failure s hs e s' he := hK e s' (h.failure s (hI s hs) e s' he)

theorem endsIn_pure {a : α} (h : ∀ s, I s → J a s) : EndsIn I (pure a : EStateM ε σ α) J K where
  value s hs _ _ ha := by
    cases ha
    exact h s hs
  failure s _ _ _ he := by cases he

theorem endsIn_throw {e : ε} (h : ∀ s, I s → K e s) : EndsIn I (throw e : EStateM ε σ α) J K where
  value s _ _ _ ha := by cases ha
  failure s hs _ _ he := by
    cases he
    exact h s hs

theorem endsIn_throw_bind {e : ε} (h : ∀ s, I s → K e s) : EndsIn I (throw e >>= f) L K where
  value s _ _ _ hb := by cases hb
  failure s hs _ _ he := by
    cases he
    exact h s hs

/-- What the first step ends in is what the second one begins with. -/
theorem EndsIn.bind (hp : EndsIn I p J K) (hf : ∀ a, EndsIn (J a) (f a) L K) :
    EndsIn I (p >>= f) L K where
  value s hs b s'' h := by
    obtain ⟨a, s', ha, hb⟩ := bind_eq_ok_iff.1 h
    exact (hf a).value s' (hp.value s hs a s' ha) b s'' hb
  failure s hs e s'' h := by
    rw [run_bind] at h
    cases hend : p s with
    | ok a s' =>
      rw [hend] at h
      exact (hf a).failure s' (hp.value s hs a s' hend) e s'' h
    | error e' s' =>
      rw [hend] at h
      cases h
      exact hp.failure s hs e s'' hend

theorem EndsIn.map (hp : EndsIn I p J K) {g : α → β} (hg : ∀ a s, J a s → L (g a) s) :
    EndsIn I (p >>= fun a => pure (g a)) L K :=
  hp.bind fun a => endsIn_pure (hg a)

theorem endsIn_get : EndsIn I (get : EStateM ε σ σ) (fun _ => I) K where
  value s hs _ _ ha := by
    cases ha
    exact hs
  failure s _ _ _ he := by cases he

/-- What does not depend on the state may be used. -/
theorem EndsIn.assume {P : Prop} (h : P → EndsIn I p J K) : EndsIn (fun s => I s ∧ P) p J K where
  value s hs := (h hs.2).value s hs.1
  failure s hs := (h hs.2).failure s hs.1

theorem endsIn_exists {ι : Type} {I : ι → σ → Prop} (h : ∀ i, EndsIn (I i) p J K) :
    EndsIn (fun s => ∃ i, I i s) p J K where
  value s := fun ⟨i, hi⟩ => (h i).value s hi
  failure s := fun ⟨i, hi⟩ => (h i).failure s hi

/-- Once the state was looked at, it is known. -/
theorem endsIn_get_bind {f : σ → EStateM ε σ β} (h : ∀ s, I s → EndsIn (· = s) (f s) L K) :
    EndsIn I (get >>= f) L K where
  value s hs b s' hb := (h s hs).value s rfl b s' hb
  failure s hs e s' he := (h s hs).failure s rfl e s' he

/-- A statement about the values so far that every step keeps holds at the end of a repetition, or
a step has failed. -/
theorem EndsIn.repeatWhile {size : σ → Nat} {step : Option α → EStateM ε σ (Option α)}
    {h : ∀ previous, Yields size (step previous)} {I : List α → σ → Prop}
    {L : List α → σ → Prop} (hstep : ∀ as previous, EndsIn (I as) (step previous)
      (fun o s => o.elim (L as s) fun a => I (as ++ [a]) s) K) (previous : Option α) :
    EndsIn (I []) (CoverageFlow.repeatWhile size step h previous) L K := by
  suffices hrun : ∀ before, EndsIn (I before) (CoverageFlow.repeatWhile size step h previous)
      (fun as => L (before ++ as)) K from hrun []
  intro before
  constructor
  case value =>
    intro s hs as s' has
    induction repeats_of_repeatWhile has generalizing before with
    | stop last =>
      rw [List.append_nil]
      exact (hstep before _).value _ hs _ _ last
    | next first rest ih =>
      have hnext := ih (before ++ [_]) ((hstep before _).value _ hs _ _ first) rest.repeatWhile_eq
      rwa [List.append_assoc] at hnext
  case failure =>
    intro s hs e s' he
    fun_induction CoverageFlow.repeatWhile size step h previous s generalizing before with
    | case1 previous s e s₁ hs₁ =>
      cases he
      exact (hstep before previous).failure _ hs _ _ hs₁
    | case2 => cases he
    | case3 previous s a s₁ hs₁ e s₂ hs₂ ih =>
      cases he
      exact ih (before ++ [a]) ((hstep before previous).value _ hs _ _ hs₁) hs₂
    | case4 => cases he

/-! ### Steps that preserve something -/

theorem Preserves.bind (hp : Preserves I p) (hf : ∀ a, Preserves I (f a)) : Preserves I (p >>= f) :=
  EndsIn.bind hp hf

theorem Preserves.map (hp : Preserves I p) (g : α → β) :
    Preserves I (p >>= fun a => pure (g a)) :=
  EndsIn.map hp fun _ _ => id

theorem Preserves.repeatWhile {size : σ → Nat} {step : Option α → EStateM ε σ (Option α)}
    {h : ∀ previous, Yields size (step previous)} (hstep : ∀ previous, Preserves I (step previous))
    (previous : Option α) : Preserves I (CoverageFlow.repeatWhile size step h previous) := by
  refine EndsIn.repeatWhile (I := fun _ => I) (L := fun _ => I) (fun _ previous => ?_) previous
  refine (hstep previous).weaken (fun _ => id) (fun o s hs => ?_) fun _ _ => id
  cases o <;> exact hs

end

/-! ### Steps on a part of the state -/

/-- A step does with a part of the state what another step does, and leaves the rest as it is. -/
structure Zooms {ε σ τ α : Type} (part : τ → σ) (put : τ → σ → τ) (p : EStateM ε σ α)
    (q : EStateM ε τ α) : Prop where
  part_put : ∀ s t, part (put s t) = t
  put_put : ∀ s t t', put (put s t) t' = put s t'
  value : ∀ s a t, p (part s) = .ok a t → q s = .ok a (put s t)
  failure : ∀ s e t, p (part s) = .error e t → q s = .error e (put s t)

section

variable {ε σ τ α : Type} {part : τ → σ} {put : τ → σ → τ} {p : EStateM ε σ α} {q : EStateM ε τ α}
  {s s' : τ}

theorem Zooms.exists_of_ok (h : Zooms part put p q) {a : α} (hq : q s = .ok a s') :
    ∃ t, p (part s) = .ok a t ∧ s' = put s t := by
  cases hp : p (part s) with
  | ok b t =>
    cases (h.value s b t hp).symm.trans hq
    exact ⟨t, rfl, rfl⟩
  | error e t => cases (h.failure s e t hp).symm.trans hq

theorem Zooms.exists_of_error (h : Zooms part put p q) {e : ε} (hq : q s = .error e s') :
    ∃ t, p (part s) = .error e t ∧ s' = put s t := by
  cases hp : p (part s) with
  | ok b t => cases (h.value s b t hp).symm.trans hq
  | error x t =>
    cases (h.failure s x t hp).symm.trans hq
    exact ⟨t, rfl, rfl⟩

/-- What a step ends in tells what the part of the state ends in. -/
theorem EndsIn.zoom {I : σ → Prop} {J : α → σ → Prop} {K : ε → σ → Prop}
    (hp : EndsIn I p J K) (h : Zooms part put p q) :
    EndsIn (fun s => I (part s)) q (fun a s => J a (part s)) fun e s => K e (part s) where
  value s hs a s' hq := by
    obtain ⟨t, hpart, rfl⟩ := h.exists_of_ok hq
    rw [h.part_put]
    exact hp.value _ hs a t hpart
  failure s hs e s' hq := by
    obtain ⟨t, hpart, rfl⟩ := h.exists_of_error hq
    rw [h.part_put]
    exact hp.failure _ hs e t hpart

end

/-! ### Readers -/

/-! #### How fields and records are read -/

theorem exists_cons_of_four_le {bytes : List UInt8} (h : 4 ≤ bytes.length) :
    ∃ a b c d rest, bytes = a :: b :: c :: d :: rest := by
  rcases bytes with _ | ⟨a, _ | ⟨b, _ | ⟨c, _ | ⟨d, rest⟩⟩⟩⟩
  case cons.cons.cons.cons => exact ⟨a, b, c, d, rest, rfl⟩
  all_goals simp at h

namespace Decoder

variable {r r' r₁ r₂ t body : Reader} {tag : Tag} {w length : UInt32} {x : Failure}

theorem word_eq_error_iff : word r = .error x t ↔
    r.remaining < 4 ∧ x = .atPosition r.position .endOfFile ∧ t = r := by
  rw [word, Reader.remaining]
  split
  · next h => simp [h]
  · next h =>
    have hshort : r.unread.length < 4 := by
      by_contra hlong
      obtain ⟨a, b, c, d, rest, hunread⟩ := exists_cons_of_four_le (Nat.not_lt.1 hlong)
      exact h a b c d rest hunread
    constructor
    · rintro ⟨⟩
      exact ⟨hshort, rfl, rfl⟩
    · rintro ⟨-, rfl, rfl⟩
      rfl

theorem take_eq_skip (count : ℕ) (r : Reader) : take count r =
    if count ≤ r.remaining then .ok (r.unread.take count) (r.skip count)
    else .error (.atPosition r.position .endOfFile) r := by
  have hcount : (r.unread.take count).length = count ↔ count ≤ r.remaining := by
    rw [List.length_take, min_eq_left_iff, Reader.remaining]
  exact if_congr hcount rfl rfl

theorem position_word (h : word r = .ok w r') :
    r'.position = r.position + 4 := by
  obtain ⟨_, -, rfl⟩ := Reader.word_eq_ok h
  rfl

/-- A record that is read consists of its tag, its length and as many words. -/
theorem exists_of_record (h : record r = .ok (tag, body) r') : ∃ length bytes rest,
      r.unread = Writer.word r.order tag.word ++ Writer.word r.order length ++ bytes ++ rest ∧
      bytes.length = 4 * length.toNat ∧
      body = { r with position := r.position + 8, unread := bytes } ∧
      r' = r.skip (8 + bytes.length) := by
  obtain ⟨tag, r₁, htag, h⟩ := bind_eq_ok_iff.1 h
  obtain ⟨length, r₂, hlength, h⟩ := bind_eq_ok_iff.1 h
  rw [run_get_bind] at h
  obtain ⟨bytes, r₃, hbytes, h⟩ := bind_eq_ok_iff.1 h
  cases h
  obtain ⟨rest₁, hr, rfl⟩ := Reader.word_eq_ok htag
  obtain ⟨rest₂, hr₁, rfl⟩ := Reader.word_eq_ok hlength
  obtain ⟨rest, hr₂, hcount, rfl⟩ := take_eq_ok hbytes
  dsimp only at hr₁ hr₂ ⊢
  have hunread : r.unread =
      Writer.word r.order tag ++ Writer.word r.order length ++ bytes ++ rest := by
    rw [hr, hr₁, hr₂, List.append_assoc, List.append_assoc]
  refine ⟨length, bytes, rest, hunread, hcount, rfl, ?_⟩
  rw [Reader.skip, hunread, List.drop_left' (by simp only [List.length_append, Writer.length_word])]
  simp only [hcount, Nat.add_assoc, Reader.mk.injEq, true_and, and_true]
  omega

/-- The same in words. -/
theorem exists_words_of_record (h : record r = .ok (tag, body) r') : ∃ ws rest,
    ws.length < UInt32.size ∧
    r.unread = Writer.words r.order (Writer.recordWords tag ws) ++ rest ∧
    body = bodyReader r (Writer.words r.order ws) ∧ r' = r.skip (8 + 4 * ws.length) := by
  obtain ⟨length, chunk, rest, hunread, hchunk, rfl, rfl⟩ := exists_of_record h
  obtain ⟨ws, stray, rfl, hstray⟩ := Writer.exists_words r.order chunk
  rw [List.length_append, Writer.length_words] at hchunk
  obtain rfl : stray = [] := List.length_eq_zero_iff.1 (by omega)
  have hlength : ws.length = length.toNat := by
    rw [List.length_nil] at hchunk
    omega
  refine ⟨ws, rest, hlength ▸ length.toNat_lt, ?_, ?_, ?_⟩
  · rw [hunread, Writer.recordWords, Writer.words_cons, Writer.words_cons, hlength,
      UInt32.ofNat_toNat, List.append_nil, List.append_assoc, List.append_assoc, List.append_assoc,
      List.append_assoc]
  · rw [List.append_nil]
    rfl
  · rw [List.append_nil, Writer.length_words]

/-- A record is not read if its tag is not. -/
theorem record_of_word_eq_error (hfirst : word r = .error x t) : record r = .error x t := by
  rw [record, run_bind, hfirst]

/-- A record is not read if its length is not. -/
theorem record_of_second_eq_error (hfirst : word r = .ok w r₁) (hsecond : word r₁ = .error x t) :
    record r = .error x t := by
  rw [record, run_bind, hfirst]
  dsimp only
  rw [run_bind, hsecond]

/-- Once the header of a record is read, the rest depends on how many bytes are left. -/
theorem record_of_words (hfirst : word r = .ok w r₁) (hsecond : word r₁ = .ok length r₂) :
    record r = if 4 * length.toNat ≤ r₂.remaining then
        .ok (⟨w⟩, { r₂ with unread := r₂.unread.take (4 * length.toNat) })
          (r₂.skip (4 * length.toNat))
      else .error (.atPosition r₂.position .endOfFile) r₂ := by
  rw [record, run_bind, hfirst]
  dsimp only
  rw [run_bind, hsecond]
  dsimp only
  rw [run_get_bind, run_bind, take_eq_skip]
  split_ifs <;> rfl

/-- A record that is not read lacks bytes for its tag, for its length or for its body. -/
theorem record_eq_error (h : record r = .error x t) :
    (r.remaining < 4 ∧ x = .atPosition r.position .endOfFile) ∨
    (4 ≤ r.remaining ∧ r.remaining < 8 ∧ x = .atPosition (r.position + 4) .endOfFile) ∨
    ∃ tag length : UInt32, Writer.words r.order [tag, length] <+: r.unread ∧
      r.remaining < 8 + 4 * length.toNat ∧ x = .atPosition (r.position + 8) .endOfFile := by
  cases hfirst : word r with
  | error x' t' =>
    obtain ⟨hshort, rfl, -⟩ := word_eq_error_iff.1 hfirst
    cases (record_of_word_eq_error hfirst).symm.trans h
    exact .inl ⟨hshort, rfl⟩
  | ok tag r₁ =>
    have hremaining₁ := remaining_word hfirst
    have hposition₁ := position_word hfirst
    cases hsecond : word r₁ with
    | error x' t' =>
      obtain ⟨hshort, rfl, -⟩ := word_eq_error_iff.1 hsecond
      cases (record_of_second_eq_error hfirst hsecond).symm.trans h
      exact .inr (.inl ⟨by omega, by omega, by rw [hposition₁]⟩)
    | ok length r₂ =>
      have hremaining₂ := remaining_word hsecond
      have hposition₂ := position_word hsecond
      rw [record_of_words hfirst hsecond] at h
      split at h
      · cases h
      · next hshort =>
        cases h
        obtain ⟨rest₁, hunread, rfl⟩ := Reader.word_eq_ok hfirst
        obtain ⟨rest₂, hunread₁, -⟩ := Reader.word_eq_ok hsecond
        refine .inr (.inr ⟨tag, length, ⟨rest₂, ?_⟩, by omega, by rw [hposition₂, hposition₁]⟩)
        rw [Writer.words_cons, Writer.words_singleton, List.append_assoc, hunread]
        exact congrArg _ hunread₁.symm

/-! #### What steps leave -/

variable {α : Type} {I : Reader → Prop} {J : α → Prop} {K : Failure → Prop} {p : Decoder α}

/-- A step on the body of a record leaves the reader of the file where it is. -/
theorem endsIn_within (hp : EndsIn (· = body) p (fun a _ => J a) fun e _ => K e) :
    EndsIn I (within body p) (fun a r => J a ∧ I r) fun e r => K e ∧ I r where
  value r hr a r' h := by
    rw [within] at h
    split at h
    · next ha =>
      cases h
      exact ⟨hp.value body rfl _ _ ha, hr⟩
    · cases h
  failure r hr e r' h := by
    rw [within] at h
    split at h
    · cases h
    · next he =>
      cases h
      exact ⟨hp.failure body rfl _ _ he, hr⟩

theorem preserves_within (body : Reader) (p : Decoder α) : Preserves I (within body p) :=
  (endsIn_within (J := fun _ => True) (K := fun _ => True)
    ⟨fun _ _ _ _ _ => trivial, fun _ _ _ _ _ => trivial⟩).weaken (fun _ => id)
    (fun _ _ => And.right) fun _ _ => And.right

theorem preserves_failAt (position : Nat) (e : Error) :
    Preserves I (failAt position e : Decoder α) :=
  endsIn_throw fun _ => id

/-- What is left as it was by a reader that moves on is left as it was by all steps. -/
structure Lasting (I : Reader → Prop) : Prop where
  skip : ∀ r, I r → ∀ count ≤ r.remaining, I (r.skip count)

variable (hI : Lasting I)

include hI

theorem preserves_take (count : Nat) : Preserves I (take count) where
  value r hr bytes r' h := by
    dsimp only [take] at h
    split at h
    · next hlength =>
      cases h
      exact hI.skip r hr count (by rw [Reader.remaining, ← hlength]; exact List.length_take_le' ..)
    · cases h
  failure r hr e r' h := by
    dsimp only [take] at h
    split at h
    · cases h
    · cases h
      exact hr

theorem preserves_word : Preserves I word where
  value r hr w r' h := by
    rw [word] at h
    split at h
    · next hunread =>
      cases h
      have hskip := hI.skip r hr 4 (by simp [Reader.remaining, hunread])
      rwa [Reader.skip, hunread] at hskip
    · cases h
  failure r hr e r' h := by
    rw [word] at h
    split at h
    · cases h
    · cases h
      exact hr

theorem preserves_long : Preserves I long :=
  (preserves_word hI).bind fun _ => (preserves_word hI).map _

theorem preserves_string : Preserves I string := by
  refine (preserves_word hI).bind fun length => ?_
  split
  · exact endsIn_pure fun _ => id
  · refine endsIn_get.bind fun _ => (preserves_take hI _).bind fun _ => ?_
    split
    · exact endsIn_pure fun _ => id
    · exact preserves_failAt _ _

theorem preserves_record : Preserves I record :=
  (preserves_word hI).bind fun _ => (preserves_word hI).bind fun _ => endsIn_get.bind fun _ =>
    (preserves_take hI _).bind fun _ => endsIn_get.map fun _ _ => id

theorem preserves_recordWithTag (tag : Tag) (reading : Expectation) :
    Preserves I (recordWithTag tag reading) := by
  refine endsIn_get.bind fun _ => (preserves_record hI).bind fun _ => ?_
  split
  split
  · exact endsIn_pure fun _ => id
  · exact preserves_failAt _ _

theorem preserves_dataUnit (previous : Option DataUnit) : Preserves I (dataUnit previous) := by
  refine endsIn_get.bind fun r => ?_
  dsimp only
  split
  · exact endsIn_pure fun _ => id
  refine (preserves_record hI).bind fun found => ?_
  split
  · exact (preserves_within _ _).bind fun _ => (preserves_recordWithTag hI _ _).bind fun _ =>
      (preserves_within _ _).map _
  split
  · exact (preserves_within _ _).map _
  split
  · exact (preserves_within _ _).map _
  · exact preserves_failAt _ _

theorem preserves_dataFile : Preserves I dataFile := by
  refine endsIn_get.bind fun r => ?_
  dsimp only
  split
  · exact endsIn_throw_bind fun _ => id
  refine (Preserves.repeatWhile (preserves_dataUnit hI) _).bind fun units => ?_
  split
  · exact endsIn_get.bind fun _ => (preserves_failAt _ _).map _
  · exact endsIn_pure fun _ => id

end Decoder

/-! ### Readers that pool names -/

namespace NotesDecoder

variable {α : Type} {I : Reader → Prop}

theorem zooms_reading (p : Decoder α) :
    Zooms NotesState.reader (fun s r => { s with reader := r }) p (reading p) where
  part_put _ _ := rfl
  put_put _ _ _ := rfl
  value s a r h := by rw [reading, h]
  failure s e r h := by rw [reading, h]

theorem endsIn_reading {J : α → Reader → Prop} {K : Failure → Reader → Prop} {p : Decoder α}
    (hp : EndsIn I p J K) : EndsIn (fun s : NotesState => I s.reader) (reading p)
      (fun a s => J a s.reader) fun e s => K e s.reader :=
  hp.zoom (zooms_reading p)

/-- A step on the body of a record leaves the reader of the file where it is. -/
theorem endsIn_within {J : α → Prop} {K : Failure → Prop} {p : NotesDecoder α} {body : Reader}
    (hp : EndsIn (fun s : NotesState => s.reader = body) p (fun a _ => J a) fun e _ => K e) :
    EndsIn (fun s : NotesState => I s.reader) (within body p) (fun a s => J a ∧ I s.reader)
      fun e s => K e ∧ I s.reader where
  value s hs a s' h := by
    rw [within] at h
    split at h
    · next ha =>
      cases h
      exact ⟨hp.value { s with reader := body } rfl _ _ ha, hs⟩
    · cases h
  failure s hs e s' h := by
    rw [within] at h
    split at h
    · cases h
    · next he =>
      cases h
      exact ⟨hp.failure { s with reader := body } rfl _ _ he, hs⟩

theorem preserves_within (body : Reader) (p : NotesDecoder α) :
    Preserves (fun s : NotesState => I s.reader) (within body p) :=
  (endsIn_within (J := fun _ => True) (K := fun _ => True)
    ⟨fun _ _ _ _ _ => trivial, fun _ _ _ _ _ => trivial⟩).weaken (fun _ => id)
    (fun _ _ => And.right) fun _ _ => And.right

theorem endsIn_intern (name : String) {K : Failure → NotesState → Prop} :
    EndsIn (fun s : NotesState => I s.reader) (intern name) (fun _ s => I s.reader) K where
  value s hs _ _ h := by
    cases h
    exact hs
  failure s _ _ _ h := by cases h

variable (hI : Decoder.Lasting I)

include hI

theorem preserves_segment : Preserves (fun s : NotesState => I s.reader) segment := by
  refine endsIn_get.bind fun s => ?_
  dsimp only
  split
  · exact endsIn_pure fun _ => id
  split
  · exact endsIn_reading (Decoder.preserves_failAt _ _)
  split
  · exact endsIn_pure fun _ => id
  split
  · exact (endsIn_reading (Decoder.preserves_record hI)).bind fun _ =>
      (endsIn_reading (Decoder.preserves_within _ _)).bind fun _ => endsIn_pure fun _ => id
  split
  · exact (endsIn_reading (Decoder.preserves_record hI)).bind fun _ =>
      (preserves_within _ _).map _
  · exact endsIn_reading (Decoder.preserves_failAt _ _)

theorem preserves_functionGroup : Preserves (fun s : NotesState => I s.reader) functionGroup :=
  (endsIn_reading (Decoder.preserves_recordWithTag hI _ _)).bind fun _ =>
    (preserves_within _ _).bind fun _ =>
    (endsIn_reading (Decoder.preserves_recordWithTag hI _ _)).bind fun _ =>
    (endsIn_reading (Decoder.preserves_within _ _)).bind fun _ =>
    (Preserves.repeatWhile (fun _ => preserves_segment hI) _).map _

theorem preserves_nextFunction : Preserves (fun s : NotesState => I s.reader) nextFunction := by
  refine endsIn_get.bind fun _ => ?_
  split
  · exact endsIn_pure fun _ => id
  · exact (preserves_functionGroup hI).map _

theorem preserves_notesFile : Preserves (fun s : NotesState => I s.reader) notesFile := by
  refine endsIn_get.bind fun s => ?_
  dsimp only
  split
  · exact endsIn_throw_bind fun _ => id
  · exact (Preserves.repeatWhile (fun _ => preserves_nextFunction hI) _).map _

end NotesDecoder

end CoverageFlow
