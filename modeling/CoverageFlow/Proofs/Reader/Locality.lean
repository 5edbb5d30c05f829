import CoverageFlow.Proofs.Reader.Outcome
import CoverageFlow.Proofs.Reader.Word

/-!
# Where readers look

A reading step looks at the bytes that it passes, and where records may end at one tag that may come
next. Bytes further back can be replaced by others, as many, without any effect on how the step
ends. This holds of steps that fail as well, where the bytes that are passed are those up to the
place where the reader is left.

## Main definitions

* `Reader.AgreesBelow`: two readers differ at most in bytes from an offset of the file on.
* `Confined`: how a step ends does not depend on bytes further back than it looks.

## Main results

* `Confined.bind`, `Confined.repeatWhile`: steps that are put together.
* `Decoder.confined_dataFile`, `NotesDecoder.confined_notesFile`: files.
-/

namespace CoverageFlow

/-! ### Steps in general -/

section

variable {ε σ α β : Type} {k : ℕ} {place : σ → ℕ} {R : ℕ → σ → σ → Prop} {p : EStateM ε σ α}
  {f : α → EStateM ε σ β}

/-- From states that differ at most from an offset on, a step ends in the same value or the same
failure if it is left `k` bytes before this offset at least. Again the states differ at most from
there on. -/
structure Confined (k : ℕ) (place : σ → ℕ) (R : ℕ → σ → σ → Prop) (p : EStateM ε σ α) : Prop where
  forward : ∀ n, Preserves (fun s => n ≤ place s) p
  value : ∀ e s s' a t, R e s s' → p s = .ok a t → place t + k ≤ e →
    ∃ t', p s' = .ok a t' ∧ R e t t'
  failure : ∀ e s s' x t, R e s s' → p s = .error x t → place t + k ≤ e →
    ∃ t', p s' = .error x t' ∧ R e t t'

theorem confined_pure (a : α) : Confined k place R (pure a : EStateM ε σ α) where
  forward _ := endsIn_pure fun _ => id
  value _ _ s' _ _ hs h _ := by
    cases h
    exact ⟨s', rfl, hs⟩
  failure _ _ _ _ _ _ h _ := by cases h

theorem confined_throw (x : ε) : Confined k place R (throw x : EStateM ε σ α) where
  forward _ := endsIn_throw fun _ => id
  value _ _ _ _ _ _ h _ := by cases h
  failure _ _ s' _ _ hs h _ := by
    cases h
    exact ⟨s', rfl, hs⟩

theorem confined_throw_bind (x : ε) (f : α → EStateM ε σ β) :
    Confined k place R (throw x >>= f) where
  forward _ := endsIn_throw_bind fun _ => id
  value _ _ _ _ _ _ h _ := by cases h
  failure _ _ s' _ _ hs h _ := by
    cases h
    exact ⟨s', rfl, hs⟩

theorem Confined.bind (hp : Confined k place R p) (hf : ∀ a, Confined k place R (f a)) :
    Confined k place R (p >>= f) where
  forward n := (hp.forward n).bind fun a => (hf a).forward n
  value e s s' b u hs h hu := by
    obtain ⟨a, t, ha, hb⟩ := bind_eq_ok_iff.1 h
    have ht := ((hf a).forward (place t)).value t (Nat.le_refl _) b u hb
    obtain ⟨t', ha', htt'⟩ := hp.value e s s' a t hs ha (by omega)
    obtain ⟨u', hb', huu'⟩ := (hf a).value e t t' b u htt' hb hu
    exact ⟨u', bind_eq_ok_iff.2 ⟨a, t', ha', hb'⟩, huu'⟩
  failure e s s' x u hs h hu := by
    rw [run_bind] at h ⊢
    split at h
    · next a t ha =>
      have ht := ((hf a).forward (place t)).failure t (Nat.le_refl _) x u h
      obtain ⟨t', ha', htt'⟩ := hp.value e s s' a t hs ha (by omega)
      rw [ha']
      exact (hf a).failure e t t' x u htt' h hu
    · next ha =>
      cases h
      obtain ⟨u', ha', huu'⟩ := hp.failure e s s' x u hs ha hu
      rw [ha']
      exact ⟨u', rfl, huu'⟩

theorem Confined.map (hp : Confined k place R p) (g : α → β) :
    Confined k place R (p >>= fun a => pure (g a)) :=
  hp.bind fun a => confined_pure (g a)

/-- A step may look at the state if what it does then depends on the next `k` bytes only. -/
theorem confined_get_bind {f : σ → EStateM ε σ β} (hf : ∀ s, Confined k place R (f s))
    (hsame : ∀ e s s', R e s s' → place s + k ≤ e → f s' = f s) :
    Confined k place R (get >>= f) where
  forward n := endsIn_get.bind fun s => (hf s).forward n
  value e s s' b u hs h hu := by
    rw [run_get_bind] at h ⊢
    have ht := ((hf s).forward (place s)).value s (Nat.le_refl _) b u h
    rw [hsame e s s' hs (by omega)]
    exact (hf s).value e s s' b u hs h hu
  failure e s s' x u hs h hu := by
    rw [run_get_bind] at h ⊢
    have ht := ((hf s).forward (place s)).failure s (Nat.le_refl _) x u h
    rw [hsame e s s' hs (by omega)]
    exact (hf s).failure e s s' x u hs h hu

/-- A step on a part of the state looks at that part. -/
theorem Confined.zoom {τ : Type} {part : τ → σ} {put : τ → σ → τ} {q : EStateM ε τ α}
    {R' : ℕ → τ → τ → Prop} (hp : Confined k place R p) (h : Zooms part put p q)
    (hR : ∀ e s s', R' e s s' ↔ ∃ t, R e (part s) t ∧ s' = put s t) :
    Confined k (fun s => place (part s)) R' q where
  forward n := (hp.forward n).zoom h
  value e s s' a u hs hq hu := by
    obtain ⟨t', htt', rfl⟩ := (hR e s s').1 hs
    obtain ⟨v, hpart, rfl⟩ := h.exists_of_ok hq
    rw [h.part_put] at hu
    obtain ⟨v', hpart', hvv'⟩ := hp.value e _ t' a v htt' hpart hu
    refine ⟨put s v', ?_, (hR _ _ _).2 ⟨v', by rwa [h.part_put], (h.put_put s v v').symm⟩⟩
    rw [h.value _ a v' (by rwa [h.part_put]), h.put_put]
  failure e s s' x u hs hq hu := by
    obtain ⟨t', htt', rfl⟩ := (hR e s s').1 hs
    obtain ⟨v, hpart, rfl⟩ := h.exists_of_error hq
    rw [h.part_put] at hu
    obtain ⟨v', hpart', hvv'⟩ := hp.failure e _ t' x v htt' hpart hu
    refine ⟨put s v', ?_, (hR _ _ _).2 ⟨v', by rwa [h.part_put], (h.put_put s v v').symm⟩⟩
    rw [h.failure _ x v' (by rwa [h.part_put]), h.put_put]

theorem Confined.repeatWhile {size : σ → Nat} {step : Option α → EStateM ε σ (Option α)}
    {h : ∀ previous, Yields size (step previous)}
    (hstep : ∀ previous, Confined k place R (step previous)) (previous : Option α) :
    Confined k place R (CoverageFlow.repeatWhile size step h previous) where
  forward n := Preserves.repeatWhile (fun previous => (hstep previous).forward n) previous
  value e s s' as u hs hrun hu := by
    suffices hend : ∃ u', Repeats step previous s' as u' ∧ R e u u' by
      obtain ⟨u', hrepeats, huu'⟩ := hend
      exact ⟨u', hrepeats.repeatWhile_eq, huu'⟩
    induction repeats_of_repeatWhile hrun generalizing s' with
    | stop last =>
      obtain ⟨u', hlast, huu'⟩ := (hstep _).value e _ s' _ _ hs last hu
      exact ⟨u', .stop hlast, huu'⟩
    | @next previous s t u a as first rest ih =>
      have hforward := (Preserves.repeatWhile (h := h)
        (fun previous => (hstep previous).forward (place t)) (some a)).value t (Nat.le_refl _) _ u
        rest.repeatWhile_eq
      obtain ⟨t', hfirst, htt'⟩ := (hstep previous).value e s s' _ t hs first (by omega)
      obtain ⟨u', hrest, huu'⟩ := ih t' htt' rest.repeatWhile_eq hu
      exact ⟨u', .next hfirst hrest, huu'⟩
  failure e s s' x u hs hrun hu := by
    fun_induction CoverageFlow.repeatWhile size step h previous s generalizing s' with
    | case1 previous s x t first =>
      cases hrun
      obtain ⟨u', hfirst, huu'⟩ := (hstep previous).failure e s s' x u hs first hu
      exact ⟨u', repeatWhile_eq_error hfirst, huu'⟩
    | case2 => cases hrun
    | case3 previous s a t first x v rest ih =>
      cases hrun
      have hforward := (Preserves.repeatWhile (h := h)
        (fun previous => (hstep previous).forward (place t)) (some a)).failure t (Nat.le_refl _) _ u
        rest
      obtain ⟨t', hfirst, htt'⟩ := (hstep previous).value e s s' _ t hs first (by omega)
      obtain ⟨u', hrest, huu'⟩ := ih t' htt' rest
      exact ⟨u', repeatWhile_eq_error_of_next hfirst hrest, huu'⟩
    | case4 => cases hrun

end

/-! ### Readers -/

namespace Reader

variable {e : ℕ} {r r' : Reader}

/-- A file has come to its end where nothing is left or only a tag of zero. -/
theorem isFinished_iff (r : Reader) :
    r.isFinished = true ↔ r.remaining = 0 ∨ r.remaining = 4 ∧ r.nextTag = some ⟨0⟩ := by
  rw [isFinished, remaining, nextTag]
  split
  · next h => simp [h]
  · next h => simp [h]
  · next hempty hword =>
    refine iff_of_false Bool.false_ne_true ?_
    rintro (hlength | ⟨hlength, -⟩)
    · exact hempty (List.length_eq_zero_iff.1 hlength)
    · obtain ⟨a, b, c, d, rest, h⟩ := exists_cons_of_four_le hlength.ge
      obtain rfl : rest = [] := by simpa [h] using hlength
      exact hword a b c d h

/-- Two readers at the same place, with as many bytes left, which differ at most from an offset of
the file on. -/
def AgreesBelow (e : ℕ) (r r' : Reader) : Prop :=
  ∃ bytes, r' = { r with unread := bytes } ∧ bytes.length = r.unread.length ∧
    bytes.take (e - r.position) = r.unread.take (e - r.position)

theorem AgreesBelow.skip (h : AgreesBelow e r r') (n : ℕ) :
    AgreesBelow e (r.skip n) (r'.skip n) := by
  obtain ⟨bytes, rfl, hlength, htake⟩ := h
  refine ⟨bytes.drop n, rfl, ?_, ?_⟩
  · rw [Reader.skip, List.length_drop, List.length_drop, hlength]
  · rw [Reader.skip, Nat.sub_add_eq, ← List.drop_take, ← List.drop_take, htake]

theorem AgreesBelow.remaining_eq (h : AgreesBelow e r r') : r'.remaining = r.remaining := by
  obtain ⟨bytes, rfl, hlength, -⟩ := h
  exact hlength

theorem AgreesBelow.position_eq (h : AgreesBelow e r r') : r'.position = r.position := by
  obtain ⟨bytes, rfl, -, -⟩ := h
  rfl

theorem AgreesBelow.take_eq (h : AgreesBelow e r r') {n : ℕ} (hn : r.position + n ≤ e) :
    r'.unread.take n = r.unread.take n := by
  obtain ⟨bytes, rfl, -, htake⟩ := h
  have hmin : min n (e - r.position) = n := by omega
  rw [← hmin, ← List.take_take, htake, List.take_take]

theorem nextTag_take (r : Reader) : nextTag { r with unread := r.unread.take 4 } = r.nextTag := by
  rw [nextTag, nextTag]
  rcases r.unread with _ | ⟨a, _ | ⟨b, _ | ⟨c, _ | ⟨d, rest⟩⟩⟩⟩ <;> rfl

theorem AgreesBelow.nextTag_eq (h : AgreesBelow e r r') (he : r.position + 4 ≤ e) :
    r'.nextTag = r.nextTag := by
  have htake := h.take_eq he
  obtain ⟨bytes, rfl, -, -⟩ := h
  rw [← nextTag_take, ← nextTag_take r, htake]

theorem AgreesBelow.isFinished_eq (h : AgreesBelow e r r') (he : r.position + 4 ≤ e) :
    r'.isFinished = r.isFinished := by
  rw [Bool.eq_iff_iff, isFinished_iff, isFinished_iff, h.remaining_eq, h.nextTag_eq he]

end Reader

namespace Decoder

variable {α β : Type} {p : Decoder α} {f : Reader → Decoder β} {r t : Reader} {x : Failure}
  {k : ℕ}

/-- A step looks at what it passes and at no more than the next `k` bytes. -/
abbrev Confined (k : ℕ) (p : Decoder α) : Prop :=
  CoverageFlow.Confined k Reader.position Reader.AgreesBelow p

theorem confined_word : Confined k word where
  forward n := preserves_word ⟨fun r hr count _ => Nat.le_add_right_of_le hr⟩
  value e r r' w t hr h ht := by
    obtain ⟨rest, hunread, rfl⟩ := Reader.word_eq_ok h
    have htaken := hr.take_eq (n := 4) (by dsimp only at ht; omega)
    rw [hunread, List.take_left' (Writer.length_word ..)] at htaken
    have hunread' : r'.unread = Writer.word r.order w ++ r'.unread.drop 4 := by
      rw [← htaken, List.take_append_drop]
    have horder : r'.order = r.order := by
      obtain ⟨bytes, rfl, -, -⟩ := hr
      rfl
    have hskip := hr.skip 4
    rw [Reader.skip, hunread, List.drop_left' (Writer.length_word ..)] at hskip
    refine ⟨_, reads_word w _ r' horder hunread', ?_⟩
    rwa [Writer.length_word]
  failure e r r' x t hr h ht := by
    obtain ⟨hshort, rfl, rfl⟩ := word_eq_error_iff.1 h
    exact ⟨r', word_eq_error_iff.2 ⟨hr.remaining_eq ▸ hshort, by rw [hr.position_eq], rfl⟩, hr⟩

theorem confined_take (count : ℕ) : Confined k (take count) where
  forward n := preserves_take ⟨fun r hr count _ => Nat.le_add_right_of_le hr⟩ count
  value e r r' bytes t hr h ht := by
    rw [take_eq_skip] at h
    split at h
    · next hcount =>
      cases h
      have htaken := hr.take_eq (n := count) (by rw [Reader.skip] at ht; dsimp only at ht; omega)
      refine ⟨r'.skip count, ?_, hr.skip count⟩
      rw [take_eq_skip, htaken, hr.remaining_eq, if_pos hcount]
    · cases h
  failure e r r' x t hr h ht := by
    rw [take_eq_skip] at h
    split at h
    · cases h
    · next hcount =>
      cases h
      refine ⟨r', ?_, hr⟩
      rw [take_eq_skip, hr.remaining_eq, if_neg hcount, hr.position_eq]

theorem confined_within (body : Reader) (p : Decoder α) : Confined k (within body p) where
  forward n := preserves_within body p
  value e r r' a t hr h ht := by
    rw [within] at h ⊢
    split at h
    · cases h
      exact ⟨r', rfl, hr⟩
    · cases h
  failure e r r' x t hr h ht := by
    rw [within] at h ⊢
    split at h
    · cases h
    · cases h
      exact ⟨r', rfl, hr⟩

theorem confined_failAt (position : ℕ) (e : Error) : Confined k (failAt position e : Decoder α) :=
  confined_throw _

theorem confined_long : Confined k long :=
  confined_word.bind fun _ => confined_word.map _

theorem confined_string : Confined k string := by
  refine confined_word.bind fun length => ?_
  split
  · exact confined_pure _
  · refine confined_get_bind (fun _ => (confined_take _).bind fun _ => ?_)
      fun _ _ _ h _ => by simp only [h.position_eq]
    split
    · exact confined_pure _
    · exact confined_failAt _ _

theorem confined_record : Confined k record := by
  refine confined_word.bind fun tag => confined_word.bind fun length =>
    confined_get_bind (fun start => (confined_take _).bind fun bytes =>
      confined_get_bind (fun r => confined_pure _) ?_) fun _ _ _ h _ => by simp only [h.position_eq]
  rintro _ r _ ⟨_, rfl, -, -⟩ -
  rfl

theorem confined_recordWithTag (tag : Tag) (reading : Expectation) :
    Confined k (recordWithTag tag reading) := by
  refine confined_get_bind (fun _ => confined_record.bind fun _ => ?_)
    fun _ _ _ h _ => by simp only [h.position_eq]
  split
  split
  · exact confined_pure _
  · exact confined_failAt _ _

theorem confined_dataUnit (previous : Option DataUnit) : Confined 4 (dataUnit previous) := by
  refine confined_get_bind (fun r => ?_) fun e r r' h he => ?_
  · dsimp only
    split
    · exact confined_pure _
    refine confined_record.bind fun found => ?_
    split
    · exact (confined_within _ _).bind fun _ => (confined_recordWithTag _ _).bind fun _ =>
        (confined_within _ _).map _
    split
    · exact (confined_within _ _).map _
    split
    · exact (confined_within _ _).map _
    · exact confined_failAt _ _
  · dsimp only
    rw [h.isFinished_eq he, h.position_eq]

theorem confined_dataFile : Confined 4 dataFile := by
  refine confined_get_bind (fun r => ?_) ?_
  · dsimp only
    split
    · exact confined_throw_bind _ _
    refine (Confined.repeatWhile confined_dataUnit none).bind fun units => ?_
    split
    · exact confined_get_bind (fun _ => (confined_failAt _ _).map _)
        fun _ _ _ h _ => by simp only [h.position_eq]
    · exact confined_pure _
  · rintro _ r _ ⟨_, rfl, -, -⟩ -
    rfl

end Decoder

/-! ### Readers that pool names -/

/-- The same names are pooled, and the readers differ at most from an offset of the file on. -/
def NotesState.AgreesBelow (e : ℕ) (s s' : NotesState) : Prop :=
  ∃ r, Reader.AgreesBelow e s.reader r ∧ s' = { s with reader := r }

namespace NotesDecoder

variable {α : Type} {k : ℕ}

/-- A step looks at what it passes and at no more than the next `k` bytes. -/
abbrev Confined (k : ℕ) (p : NotesDecoder α) : Prop :=
  CoverageFlow.Confined k (fun s : NotesState => s.reader.position) NotesState.AgreesBelow p

theorem confined_reading {p : Decoder α} (hp : p.Confined k) : Confined k (reading p) :=
  hp.zoom (zooms_reading p) fun _ _ _ => Iff.rfl

theorem confined_within (body : Reader) (p : NotesDecoder α) : Confined k (within body p) where
  forward n := preserves_within (I := (n ≤ Reader.position ·)) body p
  value e s s' a t hs h ht := by
    obtain ⟨r, hr, rfl⟩ := hs
    rw [within] at h ⊢
    split at h
    · next s₁ h₁ =>
      cases h
      exact ⟨{ s₁ with reader := r }, by simp only [h₁], r, hr, rfl⟩
    · cases h
  failure e s s' x t hs h ht := by
    obtain ⟨r, hr, rfl⟩ := hs
    rw [within] at h ⊢
    split at h
    · cases h
    · next s₁ h₁ =>
      cases h
      exact ⟨{ s₁ with reader := r }, by simp only [h₁], r, hr, rfl⟩

theorem confined_segment : Confined 4 segment := by
  refine confined_get_bind (fun s => ?_) fun e s s' hs he => ?_
  · dsimp only
    split
    · exact confined_pure _
    split
    · exact confined_reading (Decoder.confined_failAt _ _)
    split
    · exact confined_pure _
    split
    · exact (confined_reading Decoder.confined_record).bind fun _ =>
        (confined_reading (Decoder.confined_within _ _)).map _
    split
    · exact (confined_reading Decoder.confined_record).bind fun _ => (confined_within _ _).map _
    · exact confined_reading (Decoder.confined_failAt _ _)
  · obtain ⟨r, hr, rfl⟩ := hs
    dsimp only
    rw [hr.isFinished_eq he, hr.nextTag_eq he, hr.position_eq]

theorem confined_functionGroup : Confined 4 functionGroup :=
  (confined_reading (Decoder.confined_recordWithTag _ _)).bind fun _ =>
    (confined_within _ _).bind fun _ =>
    (confined_reading (Decoder.confined_recordWithTag _ _)).bind fun _ =>
    (confined_reading (Decoder.confined_within _ _)).bind fun _ =>
    (Confined.repeatWhile (fun _ => confined_segment) none).map _

theorem confined_nextFunction : Confined 4 nextFunction := by
  refine confined_get_bind (fun s => ?_) fun e s s' hs he => ?_
  · split
    · exact confined_pure _
    · exact confined_functionGroup.map _
  · obtain ⟨r, hr, rfl⟩ := hs
    dsimp only
    rw [hr.isFinished_eq he]

theorem confined_notesFile : Confined 4 notesFile := by
  refine confined_get_bind (fun s => ?_) fun e s s' hs he => ?_
  · dsimp only
    split
    · exact confined_throw_bind _ _
    · exact (Confined.repeatWhile (fun _ => confined_nextFunction) none).map _
  · obtain ⟨_, ⟨_, rfl, -, -⟩, rfl⟩ := hs
    rfl

end NotesDecoder

end CoverageFlow
