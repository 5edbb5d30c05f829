import CoverageFlow.Proofs.Reader.Pooled
import CoverageFlow.Proofs.Reader.Word
import CoverageFlow.Reader.Data

/-!
# Bodies with more words than are read

A newer compiler may append fields to the body of a record. What a body is read as does not depend
on them, because every step on a body stops where its last field ends. To say so, a run on a body is
compared with a run of the same step on the longer body: wherever the first run succeeds, the second
one does, with the same value and the same names pooled, and again with the bytes of the first run
and more left to read.

Two kinds of body are not of this sort. Blocks and arcs fill their body, so nothing may be appended.
Counts fill their body up to less than a count, so a single word may be appended where no word is
left over.

## Main definitions

* `Follows`, `Simulates`: a run, and a step from related states, does what another one does.
* `Reader.Extends`: a reader has the bytes of another one left to read, and more bytes behind them.
* `NotesState.Along`: readers are related, and the pooled names are the same.

## Main results

* `Simulates.bind`, `Simulates.repeatWhile`: steps that are put together.
* `NotesDecoder.simulates_announcement`, `NotesDecoder.simulates_lines`,
  `Decoder.simulates_functionKey`, `Decoder.simulates_summary`: bodies to which words may be
  appended.
* `Decoder.simulates_counts`: a body to which fewer bytes than a count may be appended.
-/

namespace CoverageFlow

/-! ### Steps that do what other steps do -/

section

variable {ε σ α β : Type} {R : σ → σ → Prop} {V : α → α → Prop} {W : β → β → Prop}

/-- If the first run succeeds, the second one does, with a related value and a related state. -/
def Follows (R : σ → σ → Prop) (V : α → α → Prop) (result result' : EStateM.Result ε σ α) : Prop :=
  ∀ a s, result = .ok a s → ∃ b t, result' = .ok b t ∧ V a b ∧ R s t

/-- Wherever the first step succeeds, the second step succeeds from every related state, with a
related value, and leaves a related state. -/
def Simulates (R : σ → σ → Prop) (V : α → α → Prop) (p q : EStateM ε σ α) : Prop :=
  ∀ s t, R s t → Follows R V (p s) (q t)

theorem simulates_pure {a b : α} (h : V a b) :
    Simulates R V (pure a : EStateM ε σ α) (pure b) := by
  rintro s t hst _ _ ⟨⟩
  exact ⟨b, t, rfl, h, hst⟩

theorem simulates_get : Simulates R R (get : EStateM ε σ σ) get := by
  rintro s t hst _ _ ⟨⟩
  exact ⟨t, t, rfl, hst, hst⟩

/-- What fails need not be done. -/
theorem simulates_throw (e : ε) (q : EStateM ε σ α) : Simulates R V (throw e) q := by
  rintro s t - _ _ ⟨⟩

/-- What holds of two runs is kept by steps that come behind them. -/
theorem Follows.bind {p q : EStateM ε σ α} {f g : α → EStateM ε σ β} {s t : σ}
    (hp : Follows R V (p s) (q t)) (hf : ∀ a b, V a b → Simulates R W (f a) (g b)) :
    Follows R W ((p >>= f) s) ((q >>= g) t) := by
  intro c s'' h
  obtain ⟨a, s', ha, hc⟩ := bind_eq_ok_iff.1 h
  obtain ⟨b, t', hb, hab, hst'⟩ := hp a s' ha
  obtain ⟨d, t'', hd, hcd, hst''⟩ := hf a b hab s' t' hst' c s'' hc
  exact ⟨d, t'', bind_eq_ok_iff.2 ⟨b, t', hb, hd⟩, hcd, hst''⟩

theorem Simulates.bind {p q : EStateM ε σ α} {f g : α → EStateM ε σ β} (hp : Simulates R V p q)
    (hf : ∀ a b, V a b → Simulates R W (f a) (g b)) : Simulates R W (p >>= f) (q >>= g) :=
  fun s t hst => (hp s t hst).bind hf

/-- The same where the values are equal. -/
theorem Simulates.bind_eq {p q : EStateM ε σ α} {f g : α → EStateM ε σ β}
    (hp : Simulates R Eq p q) (hf : ∀ a, Simulates R W (f a) (g a)) :
    Simulates R W (p >>= f) (q >>= g) :=
  hp.bind fun a _ hab => hab ▸ hf a

theorem Simulates.map_eq {p q : EStateM ε σ α} (hp : Simulates R Eq p q) (f : α → β) :
    Simulates R Eq (p >>= fun a => pure (f a)) (q >>= fun a => pure (f a)) :=
  hp.bind_eq fun _ => simulates_pure rfl

/-- What every step keeps, a repetition keeps. -/
theorem Simulates.repeatWhile {size : σ → Nat} {step : Option α → EStateM ε σ (Option α)}
    {h : ∀ previous, Yields size (step previous)}
    (hstep : ∀ previous, Simulates R Eq (step previous) (step previous)) (previous : Option α) :
    Simulates R Eq (CoverageFlow.repeatWhile size step h previous)
      (CoverageFlow.repeatWhile size step h previous) := by
  intro s t hst as s' has
  suffices hrepeats : ∃ t', Repeats step previous t as t' ∧ R s' t' by
    obtain ⟨t', hrepeats, hst'⟩ := hrepeats
    exact ⟨as, t', hrepeats.repeatWhile_eq, rfl, hst'⟩
  induction repeats_of_repeatWhile has generalizing t with
  | stop last =>
    obtain ⟨_, t', hlast, rfl, hst'⟩ := hstep _ _ t hst _ _ last
    exact ⟨t', .stop hlast, hst'⟩
  | next first rest ih =>
    obtain ⟨_, t', hfirst, rfl, hst'⟩ := hstep _ _ t hst _ _ first
    obtain ⟨t'', hrest, hst''⟩ := ih t' hst' rest.repeatWhile_eq
    exact ⟨t'', .next hfirst hrest, hst''⟩

end

/-! ### Fields -/

/-- A reader has the bytes of another one left to read, and more bytes behind them. -/
structure Reader.Extends (extra : List UInt8) (r r' : Reader) : Prop where
  order : r'.order = r.order
  unread : r'.unread = r.unread ++ extra

namespace Decoder

variable {α : Type} {R S : Reader → Reader → Prop} {extra : List UInt8}

theorem simulates_word : Simulates (Reader.Extends extra) Eq word word := by
  intro r r' h w s hword
  obtain ⟨rest, hr, rfl⟩ := Reader.word_eq_ok hword
  have hr' : r'.unread = Writer.word r.order w ++ (rest ++ extra) := by
    rw [h.unread, hr, List.append_assoc]
  exact ⟨w, _, reads_word w _ r' h.order hr', rfl, h.order, Reader.unread_skip hr'⟩

theorem simulates_take (count : Nat) :
    Simulates (Reader.Extends extra) Eq (take count) (take count) := by
  intro r r' h bytes s htake
  obtain ⟨rest, hr, rfl, rfl⟩ := take_eq_ok htake
  have hr' : r'.unread = bytes ++ (rest ++ extra) := by rw [h.unread, hr, List.append_assoc]
  exact ⟨bytes, _, reads_take bytes _ r' h.order hr', rfl, h.order, Reader.unread_skip hr'⟩

theorem simulates_long : Simulates (Reader.Extends extra) Eq long long :=
  simulates_word.bind_eq fun _ => simulates_word.map_eq _

theorem simulates_string : Simulates (Reader.Extends extra) Eq string string := by
  refine simulates_word.bind_eq fun length => ?_
  split
  · exact simulates_pure rfl
  · refine simulates_get.bind fun r r' _ => (simulates_take _).bind_eq fun bytes => ?_
    cases Utf8.decode (bytes.takeWhile (· ≠ 0)) with
    | ok s => exact simulates_pure rfl
    | error fault => exact simulates_throw _ _

/-! ### Bodies -/

/-- A step on the body of a record does what it does on a related body, and the reader of the file
does not move. -/
theorem simulates_within {p : Decoder α} (hp : Simulates S Eq p p) {body body' : Reader}
    (hbody : S body body') : Simulates R Eq (within body p) (within body' p) := by
  intro r r' hr a s h
  obtain ⟨⟨rest, ha⟩, rfl⟩ := within_eq_ok_iff.1 h
  obtain ⟨_, rest', ha', rfl, -⟩ := hp body body' hbody a rest ha
  exact ⟨a, r', within_eq_ok_iff.2 ⟨⟨rest', ha'⟩, rfl⟩, rfl, hr⟩

/-- A step is repeated until the body ends, so the body must end in the same place. -/
theorem simulates_untilEmpty {step : Decoder α} {h : Consumes step}
    (hstep : Simulates (Reader.Extends []) Eq step step) :
    Simulates (Reader.Extends []) Eq (untilEmpty step h) (untilEmpty step h) := by
  refine Simulates.repeatWhile (fun _ => simulates_get.bind fun r r' hr => ?_) none
  rw [Reader.isEmpty, Reader.isEmpty, hr.unread, List.append_nil]
  split
  · exact simulates_pure rfl
  · exact hstep.map_eq some

theorem simulates_functionKey : Simulates (Reader.Extends extra) Eq functionKey functionKey :=
  simulates_word.bind_eq fun _ => simulates_word.map_eq _

theorem simulates_summary : Simulates (Reader.Extends extra) Eq summary summary :=
  simulates_word.bind_eq fun _ => simulates_word.bind_eq fun _ => simulates_word.bind_eq fun _ =>
    simulates_long.bind_eq fun _ => simulates_long.bind_eq fun _ => simulates_long.map_eq _

/-! ### Counts -/

theorem remaining_long {n : UInt64} {r r' : Reader} (h : long r = .ok n r') :
    r'.remaining + 8 = r.remaining := by
  obtain ⟨low, r₁, hlow, h⟩ := bind_eq_ok_iff.1 h
  obtain ⟨high, r₂, hhigh, h⟩ := bind_eq_ok_iff.1 h
  cases h
  rw [← remaining_word hlow, ← remaining_word hhigh]

/-- Counts are read as long as there are bytes enough for one, so nothing changes if the appended
bytes make no further count. -/
theorem simulates_counts : Simulates
    (fun r r' => Reader.Extends extra r r' ∧ r'.remaining / 8 = r.remaining / 8)
    Eq counts counts := by
  refine Simulates.repeatWhile (fun _ => simulates_get.bind fun r r' hr => ?_) none
  by_cases hend : r.remaining < 8
  · rw [if_pos hend, if_pos (by omega)]
    exact simulates_pure rfl
  · rw [if_neg hend, if_neg (by omega)]
    refine Simulates.map_eq (fun r r' hr n s hs => ?_) some
    obtain ⟨_, s', hs', rfl, hextends⟩ := simulates_long r r' hr.1 n s hs
    refine ⟨n, s', hs', rfl, hextends, ?_⟩
    have hmoved := remaining_long hs
    have hmoved' := remaining_long hs'
    omega

end Decoder

/-! ### Bodies with names -/

/-- The readers of two states are related, and the same names are pooled. -/
structure NotesState.Along (R : Reader → Reader → Prop) (s t : NotesState) : Prop where
  reader : R s.reader t.reader
  symbols : t.symbols = s.symbols

namespace NotesDecoder

variable {α : Type} {R S : Reader → Reader → Prop} {V : α → α → Prop} {extra : List UInt8}

/-- Steps that pool no name leave the tables as they are. -/
theorem follows_reading {p q : Decoder α} {s t : NotesState}
    (h : Follows R V (p s.reader) (q t.reader)) (hsymbols : t.symbols = s.symbols) :
    Follows (NotesState.Along R) V (reading p s) (reading q t) := by
  intro a s' hs
  rw [reading] at hs
  split at hs
  · next r hr =>
    cases hs
    obtain ⟨b, r', hr', hab, hreader⟩ := h a r hr
    refine ⟨b, { t with reader := r' }, ?_, hab, hreader, hsymbols⟩
    rw [reading, hr']
  · cases hs

theorem simulates_reading {p q : Decoder α} (h : Simulates R V p q) :
    Simulates (NotesState.Along R) V (reading p) (reading q) :=
  fun s t hst => follows_reading (h s.reader t.reader hst.reader) hst.symbols

theorem simulates_within {p : NotesDecoder α} (hp : Simulates (NotesState.Along S) Eq p p)
    {body body' : Reader} (hbody : S body body') :
    Simulates (NotesState.Along R) Eq (within body p) (within body' p) := by
  intro s t hst a s' hs
  rw [within] at hs
  split at hs
  · next s₁ hs₁ =>
    cases hs
    obtain ⟨_, t₁, ht₁, rfl, hend⟩ :=
      hp { s with reader := body } { t with reader := body' } ⟨hbody, hst.symbols⟩ a s₁ hs₁
    refine ⟨a, { t₁ with reader := t.reader }, ?_, rfl, hst.reader, hend.symbols⟩
    rw [within, ht₁]
  · cases hs

/-- Equal tables pool a name as the same symbol. -/
theorem simulates_intern (name : String) :
    Simulates (NotesState.Along R) Eq (intern name) (intern name) := by
  rintro s ⟨r, _⟩ ⟨hr, rfl⟩ _ _ ⟨⟩
  exact ⟨_, _, rfl, rfl, hr, rfl⟩

theorem simulates_symbol :
    Simulates (NotesState.Along (Reader.Extends extra)) Eq symbol symbol := by
  refine (simulates_reading Decoder.simulates_string).bind_eq fun name => ?_
  cases name with
  | some name => exact simulates_intern name
  | none => exact simulates_pure rfl

theorem simulates_announcement :
    Simulates (NotesState.Along (Reader.Extends extra)) Eq announcement announcement := by
  refine (simulates_reading Decoder.simulates_word).bind_eq fun ident => ?_
  refine (simulates_reading Decoder.simulates_word).bind_eq fun checksum => ?_
  refine (simulates_reading Decoder.simulates_string).bind_eq fun name => ?_
  refine simulates_symbol.bind_eq fun source => ?_
  exact (simulates_reading Decoder.simulates_word).map_eq _

theorem simulates_blocks : Simulates (Reader.Extends []) Eq blocks blocks :=
  Decoder.simulates_untilEmpty Decoder.simulates_word

theorem simulates_arcs : Simulates (Reader.Extends []) Eq arcs arcs :=
  Decoder.simulates_word.bind_eq fun _ => (Decoder.simulates_untilEmpty
    (Decoder.simulates_word.bind_eq fun _ => Decoder.simulates_word.map_eq _)).map_eq _

theorem simulates_line :
    Simulates (NotesState.Along (Reader.Extends extra)) Eq line line := by
  refine (simulates_reading Decoder.simulates_word).bind_eq fun number => ?_
  split
  · exact simulates_pure rfl
  · refine (simulates_reading Decoder.simulates_string).bind_eq fun name => ?_
    cases name with
    | some name => exact (simulates_intern name).map_eq _
    | none => exact simulates_pure rfl

/-- The entries end with a zero without a name, whatever comes behind it. -/
theorem simulates_lines :
    Simulates (NotesState.Along (Reader.Extends extra)) Eq lines lines :=
  (simulates_reading Decoder.simulates_word).bind_eq fun _ =>
    (Simulates.repeatWhile (fun _ => simulates_line) none).map_eq _

end NotesDecoder

end CoverageFlow
